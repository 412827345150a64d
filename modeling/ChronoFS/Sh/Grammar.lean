import ChronoFS.Sh.Tokens

/-!
# The grammar of command lines

    line  := pipe '&'* (';' line)?
    pipe  := cmd ('|' pipe)?
    cmd   := '(' line ')' redir* | redir* (word redir*){0..9}
    redir := ('<' | '>' | '>>') word

Each nonterminal is a relation between a list of tokens and the command that it stands for. `'&'`
wraps the pipe to its left, `';'` and `'|'` nest to the right, and redirections are around their command,
the first one innermost.
-/

namespace ChronoFS.Sh

/-- `redir*`. -/
inductive Redirs : List Token → List Redir → Prop
  | nil : Redirs [] []
  /-- `< file`. -/
  | lt {op file : Token} {ts : List Token} {rs : List Redir} : op.kind = .lt → file.kind = .word →
      Redirs ts rs → Redirs (op :: file :: ts) (⟨file.q, file.eq, O_RDONLY, 0⟩ :: rs)
  /-- `> file`, and `>> file`, which is the same. -/
  | gt {op file : Token} {ts : List Token} {rs : List Redir} : op.kind = .gt ∨ op.kind = .gtgt →
      file.kind = .word → Redirs ts rs →
      Redirs (op :: file :: ts) (⟨file.q, file.eq, O_WRONLY ||| O_CREATE, 1⟩ :: rs)

/-- `(word redir*)*`. -/
inductive Args : List Token → (argv : List (ℕ × ℕ)) → List Redir → Prop
  | nil : Args [] [] []
  /-- A word and the redirections after it. -/
  | cons {w : Token} {us ts : List Token} {rs rs' : List Redir} {argv : List (ℕ × ℕ)} :
      w.kind = .word → Redirs us rs → Args ts argv rs' →
      Args (w :: (us ++ ts)) ((w.q, w.eq) :: argv) (rs ++ rs')

/-- The command in the background, for each of the `'&'`s. -/
def backs : (amps : List Token) → Cmd → Cmd
  | [], cmd => cmd
  | _ :: amps, cmd => backs amps (.back cmd)

mutual

/-- `line`. -/
inductive Line : List Token → Cmd → Prop
  /-- `pipe '&'*`. -/
  | last {ts amps : List Token} {cmd : Cmd} : Pipe ts cmd → (∀ t ∈ amps, t.kind = .amp) →
      Line (ts ++ amps) (backs amps cmd)
  /-- `pipe '&'* ';' line`. -/
  | list {ts amps us : List Token} {semi : Token} {cmd right : Cmd} : Pipe ts cmd →
      (∀ t ∈ amps, t.kind = .amp) → semi.kind = .semi → Line us right →
      Line (ts ++ (amps ++ semi :: us)) (.list (backs amps cmd) right)

/-- `pipe`. -/
inductive Pipe : List Token → Cmd → Prop
  /-- `cmd`. -/
  | last {ts : List Token} {cmd : Cmd} : Command ts cmd → Pipe ts cmd
  /-- `cmd '|' pipe`. -/
  | pipe {ts us : List Token} {bar : Token} {cmd right : Cmd} : Command ts cmd → bar.kind = .bar →
      Pipe us right → Pipe (ts ++ bar :: us) (.pipe cmd right)

/-- `cmd`. -/
inductive Command : List Token → Cmd → Prop
  /-- `'(' line ')' redir*`. -/
  | block {ts us : List Token} {lparen rparen : Token} {cmd : Cmd} {rs : List Redir} :
      lparen.kind = .lparen → Line ts cmd → rparen.kind = .rparen → Redirs us rs →
      Command (lparen :: (ts ++ rparen :: us)) (wrap cmd rs)
  /-- `redir* (word redir*){0..9}`. -/
  | exec {us ts : List Token} {rs rs' : List Redir} {argv : List (ℕ × ℕ)} : Redirs us rs →
      Args ts argv rs' → argv.length ≤ 9 → Command (us ++ ts) (wrap (.exec argv) (rs ++ rs'))

end

end ChronoFS.Sh
