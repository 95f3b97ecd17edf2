import Mathlib.Data.List.Basic
import Xv6Mmap.Kalloc

/-!
# The parser of the shell (`sh.c:260-493`)

`parsecmd` reads a line and returns a tree of commands whose strings point into the line; then
`nulterminate` ends each string where its token ended, in the line itself.

A `char *` into the line is modelled as the text from there to the end of the line, so that `*s` is
its first character, or NUL if there is none. The parse functions take the text at `*ps` and return
the text they leave there. An `execcmd` is filled while redirections are already wrapped around it:
`parseredirs` therefore returns the redirections it has read, and the tree is put together when the
arguments are complete.

A tree is printed as tokens (`Cmd.toks`), with parentheses where an operand is not of the kind the
grammar wants, and tokens as any text that separates them (`Renders`): white space is needed between
two words only.

* **`parsecmd_of_renders`**: every text that renders a tree is parsed, and the strings of the result
  are, after `nulterminate`, the tree again.
-/

namespace Xv6Mmap.Shell

/-- `strchr(whitespace, c)`. -/
def isWhite (c : Char) : Bool := [' ', '\t', '\r', '\n', '\x0b'].contains c

/-- `strchr(symbols, c)`. -/
def isSymbol (c : Char) : Bool := ['<', '|', '>', '&', ';', '(', ')'].contains c

/-- A character that goes on with a word. -/
def isWord (c : Char) : Bool := !isWhite c && !isSymbol c

def nul : Char := '\x00'

/-- `MAXARGS`. -/
def maxargs : Nat := 10

/-- A string of a command: where it starts and where it ends (`argv` and `eargv`). -/
structure Ptr where
  start : List Char
  stop : List Char

/-- `struct cmd`, with strings of type `α`. -/
inductive Cmd (α : Type) where
  | exec (argv : List α)
  | redir (cmd : Cmd α) (file : α) (mode fd : Nat)
  | pipe (left right : Cmd α)
  | list (left right : Cmd α)
  | back (cmd : Cmd α)

/-! ## Tokens -/

/-- `while(s < es && strchr(whitespace, *s)) s++`. -/
def skip (s : List Char) : List Char := s.dropWhile isWhite

/-- The `switch` of `gettoken`: the token at `s`, and where it ends. -/
def token : List Char → Char × List Char
  | [] => (nul, [])
  | '>' :: '>' :: s => ('+', s)
  | c :: s => if isSymbol c then (c, s) else ('a', (c :: s).dropWhile isWord)

/-- `gettoken(ps, es, q, eq)`: the token, `*q`, `*eq` and `*ps`. -/
def gettoken (s : List Char) : Char × Ptr × List Char :=
  let q := skip s
  let (ret, eq) := token q
  (ret, ⟨q, eq⟩, skip eq)

/-- `peek(ps, es, toks)`, less the move of `*ps` to `skip s`. -/
def peek (s : List Char) (toks : List Char) : Bool :=
  match skip s with
  | [] => false
  | c :: _ => toks.contains c

/-! ## The grammar -/

/-- What `parseredirs` wraps around a command. -/
structure Redir (α : Type) where
  file : α
  mode : Nat
  fd : Nat

def Cmd.wrap {α : Type} (c : Cmd α) (rs : List (Redir α)) : Cmd α :=
  rs.foldl (fun c r => .redir c r.file r.mode r.fd) c

/-- `redircmd` for the token of the redirection; `O_WRONLY|O_CREATE` is `0x201`. -/
def redircmd (tok : Char) (p : Ptr) : Redir Ptr :=
  if tok = '<' then ⟨p, 0, 0⟩ else ⟨p, 0x201, 1⟩

/-- The loop of `parseredirs`. -/
def parseredirs : Nat → List Char → Except Halt (List (Redir Ptr) × List Char)
  | 0, _ => .error .deadlock
  | n + 1, s =>
    if peek s ['<', '>'] then
      let (tok, _, s) := gettoken (skip s)
      let (arg, p, s) := gettoken s
      if arg ≠ 'a' then .error (.panic "missing file for redirection")
      else
        match parseredirs n s with
        | .error e => .error e
        | .ok (rs, s) => .ok (redircmd tok p :: rs, s)
    else .ok ([], skip s)

/-- The loop of `parseexec`, with the arguments and the redirections read so far. -/
def parseargs : Nat → List Char → List Ptr → List (Redir Ptr) →
    Except Halt (List Ptr × List (Redir Ptr) × List Char)
  | 0, _, _, _ => .error .deadlock
  | n + 1, s, argv, rs =>
    if peek s ['|', ')', '&', ';'] then .ok (argv, rs, skip s)
    else
      let (tok, p, s) := gettoken (skip s)
      if tok = nul then .ok (argv, rs, s)
      else if tok ≠ 'a' then .error (.panic "syntax")
      else if maxargs ≤ argv.length + 1 then .error (.panic "too many args")
      else
        match parseredirs (s.length + 1) s with
        | .error e => .error e
        | .ok (rs', s) => parseargs n s (argv ++ [p]) (rs ++ rs')

/-- `while(peek(ps, es, "&")) …` of `parseline`. -/
def parsebacks : Nat → Cmd Ptr → List Char → Except Halt (Cmd Ptr × List Char)
  | 0, _, _ => .error .deadlock
  | n + 1, cmd, s =>
    if peek s ['&'] then parsebacks n (.back cmd) (gettoken (skip s)).2.2 else .ok (cmd, skip s)

mutual

def parseline : Nat → List Char → Except Halt (Cmd Ptr × List Char)
  | 0, _ => .error .deadlock
  | n + 1, s =>
    match parsepipe n s with
    | .error e => .error e
    | .ok (cmd, s) =>
      match parsebacks (s.length + 1) cmd s with
      | .error e => .error e
      | .ok (cmd, s) =>
        if peek s [';'] then
          match parseline n (gettoken (skip s)).2.2 with
          | .error e => .error e
          | .ok (right, s) => .ok (.list cmd right, s)
        else .ok (cmd, skip s)

def parsepipe : Nat → List Char → Except Halt (Cmd Ptr × List Char)
  | 0, _ => .error .deadlock
  | n + 1, s =>
    match parseexec n s with
    | .error e => .error e
    | .ok (cmd, s) =>
      if peek s ['|'] then
        match parsepipe n (gettoken (skip s)).2.2 with
        | .error e => .error e
        | .ok (right, s) => .ok (.pipe cmd right, s)
      else .ok (cmd, skip s)

def parseblock : Nat → List Char → Except Halt (Cmd Ptr × List Char)
  | 0, _ => .error .deadlock
  | n + 1, s =>
    if peek s ['('] then
      match parseline n (gettoken (skip s)).2.2 with
      | .error e => .error e
      | .ok (cmd, s) =>
        if peek s [')'] then
          let s := (gettoken (skip s)).2.2
          match parseredirs (s.length + 1) s with
          | .error e => .error e
          | .ok (rs, s) => .ok (cmd.wrap rs, s)
        else .error (.panic "syntax - missing )")
    else .error (.panic "parseblock")

def parseexec : Nat → List Char → Except Halt (Cmd Ptr × List Char)
  | 0, _ => .error .deadlock
  | n + 1, s =>
    if peek s ['('] then parseblock n (skip s)
    else
      let s := skip s
      match parseredirs (s.length + 1) s with
      | .error e => .error e
      | .ok (rs, s) =>
        match parseargs (s.length + 1) s [] rs with
        | .error e => .error e
        | .ok (argv, rs, s) => .ok ((Cmd.exec argv).wrap rs, s)

end

/-! ## `nulterminate` -/

/-- The characters of the line, by position. -/
abbrev Mem := Nat → Char

/-- The position that a pointer into a line of length `es` points to. -/
def pos (es : Nat) (s : List Char) : Nat := es - s.length

/-- `*e = 0`. -/
def Mem.clear (m : Mem) (es : Nat) (e : List Char) : Mem := Function.update m (pos es e) nul

/-- `nulterminate(cmd)`. -/
def nulterminate (es : Nat) : Cmd Ptr → Mem → Mem
  | .exec argv, m => argv.foldl (fun m p => m.clear es p.stop) m
  | .redir cmd file _ _, m => (nulterminate es cmd m).clear es file.stop
  | .pipe left right, m => nulterminate es right (nulterminate es left m)
  | .list left right, m => nulterminate es right (nulterminate es left m)
  | .back cmd, m => nulterminate es cmd m

/-- `parsecmd(s)`: the tree, and the line as it is then. The depth of the recursion is at most four
calls for a character. -/
def parsecmd (s : List Char) : Except Halt (Cmd Ptr × Mem) :=
  match parseline (4 * s.length + 4) s with
  | .error e => .error e
  | .ok (cmd, rest) =>
    if skip rest ≠ [] then .error (.panic "syntax")
    else .ok (cmd, nulterminate s.length cmd fun i => s.getD i nul)

/-- The string that starts at `i`, of at most `n` characters. -/
def string (m : Mem) : Nat → Nat → List Char
  | 0, _ => []
  | n + 1, i => if m i = nul then [] else m i :: string m n (i + 1)

def Cmd.map {α β : Type} (f : α → β) : Cmd α → Cmd β
  | .exec argv => .exec (argv.map f)
  | .redir cmd file mode fd => .redir (cmd.map f) (f file) mode fd
  | .pipe left right => .pipe (left.map f) (right.map f)
  | .list left right => .list (left.map f) (right.map f)
  | .back cmd => .back (cmd.map f)

/-! ## Printing -/

inductive Tok where
  | word (w : List Char)
  | sym (c : Char)

/-- A word of a command line. -/
def IsWord (w : List Char) : Prop := w ≠ [] ∧ ∀ c ∈ w, isWord c = true ∧ c ≠ nul

/-- The trees that can be written down: at most nine words, and redirections as the two tokens make
them. -/
def Cmd.Wf : Cmd (List Char) → Prop
  | .exec argv => argv.length < maxargs ∧ ∀ w ∈ argv, IsWord w
  | .redir cmd file mode fd =>
    cmd.Wf ∧ IsWord file ∧ (mode = 0 ∧ fd = 0 ∨ mode = 0x201 ∧ fd = 1)
  | .pipe left right => left.Wf ∧ right.Wf
  | .list left right => left.Wf ∧ right.Wf
  | .back cmd => cmd.Wf

/-- What the grammar has a tree as, bare: 0 for `parseexec`, 1 for `parsepipe`, 2 for `parseline` up
to its `&`s, 3 for `parseline`. -/
def Cmd.level {α : Type} : Cmd α → Nat
  | .exec _ => 0
  | .redir .. => 0
  | .pipe .. => 1
  | .back _ => 2
  | .list .. => 3

/-- The tokens of an operand of level `k`, where one of level at most `n` is wanted. -/
def bracket (n k : Nat) (ts : List Tok) : List Tok :=
  if k ≤ n then ts else .sym '(' :: (ts ++ [.sym ')'])

/-- The tokens of a redirection. -/
def Redir.toks (r : Redir (List Char)) : List Tok :=
  [.sym (if r.fd = 0 then '<' else '>'), .word r.file]

def Cmd.toks : Cmd (List Char) → List Tok
  | .exec argv => argv.map .word
  | .redir cmd file mode fd => bracket 0 cmd.level cmd.toks ++ Redir.toks ⟨file, mode, fd⟩
  | .pipe left right => bracket 0 left.level left.toks ++ .sym '|' :: bracket 1 right.level right.toks
  | .list left right => bracket 2 left.level left.toks ++ .sym ';' :: bracket 3 right.level right.toks
  | .back cmd => bracket 2 cmd.level cmd.toks ++ [.sym '&']

/-- The text does not go on with a word. -/
def Boundary (s : List Char) : Prop := ∀ c ∈ s.head?, isWord c = false

/-- A text of the tokens: any white space before, between and after them, and some between two
words. -/
inductive Renders : List Tok → List Char → Prop where
  | nil {ws : List Char} (hws : ∀ c ∈ ws, isWhite c = true) : Renders [] ws
  | sym {ws s : List Char} {c : Char} {ts : List Tok} (hws : ∀ c ∈ ws, isWhite c = true)
      (h : Renders ts s) : Renders (.sym c :: ts) (ws ++ c :: s)
  | word {ws w s : List Char} {ts : List Tok} (hws : ∀ c ∈ ws, isWhite c = true)
      (hs : Boundary s) (h : Renders ts s) : Renders (.word w :: ts) (ws ++ (w ++ s))

/-! ## Reading tokens -/

/-- A token that a tree prints. -/
def Tok.Ok : Tok → Prop
  | .word w => IsWord w
  | .sym c => isSymbol c = true

/-- What is left of the line: a text of the tokens `ts`, all of them tokens of trees. -/
structure Text (line : List Char) (ts : List Tok) (s : List Char) : Prop where
  ok : ∀ t ∈ ts, t.Ok
  renders : Renders ts s
  suffix : s <:+ line

/-- The pointers delimit the word `w` of the line. -/
structure Points (line : List Char) (p : Ptr) (w : List Char) : Prop where
  word : IsWord w
  start : p.start = w ++ p.stop
  stop : Boundary p.stop
  suffix : p.start <:+ line

section Tokens

variable {line s : List Char} {ts : List Tok} {c : Char} {w : List Char}

theorem not_white_of_symbol (h : isSymbol c = true) : isWhite c = false := by
  simp only [isSymbol, List.contains_iff_mem, List.mem_cons, List.not_mem_nil, or_false] at h
  rcases h with rfl | rfl | rfl | rfl | rfl | rfl | rfl <;> rfl

theorem isWord_iff : isWord c = true ↔ isWhite c = false ∧ isSymbol c = false := by
  simp [isWord]

theorem skip_append {ws : List Char} (h : ∀ c ∈ ws, isWhite c = true) (s : List Char) :
    skip (ws ++ s) = skip s := by
  induction ws with
  | nil => rfl
  | cons c ws ih =>
    rw [List.cons_append, skip, List.dropWhile_cons_of_pos (h c List.mem_cons_self)]
    exact ih fun d hd => h d (List.mem_cons_of_mem _ hd)

theorem skip_cons (h : isWhite c = false) (s : List Char) : skip (c :: s) = c :: s :=
  List.dropWhile_cons_of_neg (by simp [h])

theorem skip_suffix (s : List Char) : skip s <:+ s := List.dropWhile_suffix _

theorem skip_length_le (s : List Char) : (skip s).length ≤ s.length := (skip_suffix s).length_le

namespace Text

theorem head {t : Tok} (h : Text line (t :: ts) s) : t.Ok := h.ok t List.mem_cons_self

/-- Behind the first token. -/
theorem tail {t : Tok} {s' : List Char} (h : Text line (t :: ts) s) (hr : Renders ts s')
    (hs : s' <:+ skip s) : Text line ts s' :=
  ⟨fun x hx => h.ok x (List.mem_cons_of_mem _ hx), hr, (hs.trans (skip_suffix s)).trans h.suffix⟩

theorem skip_nil (h : Text line [] s) : skip s = [] := by
  have hr := h.renders
  cases hr with
  | nil hws => simpa [Shell.skip] using skip_append hws []

theorem skip_sym (h : Text line (.sym c :: ts) s) : ∃ s1, skip s = c :: s1 ∧ Text line ts s1 := by
  have hr := h.renders
  cases hr with
  | @sym ws s1 _ _ hws hr =>
    have hskip := (skip_append hws (c :: s1)).trans (skip_cons (not_white_of_symbol h.head) s1)
    exact ⟨s1, hskip, h.tail hr (by rw [hskip]; exact List.suffix_cons ..)⟩

theorem skip_word (h : Text line (.word w :: ts) s) :
    ∃ s1, skip s = w ++ s1 ∧ Boundary s1 ∧ Text line ts s1 := by
  have hr := h.renders
  cases hr with
  | @word ws _ s1 _ hws hs hr =>
    have hskip : Shell.skip (ws ++ (w ++ s1)) = w ++ s1 := by
      obtain ⟨c, w, rfl⟩ := List.exists_cons_of_ne_nil h.head.1
      have hc := (isWord_iff.mp (h.head.2 c List.mem_cons_self).1).1
      exact (skip_append hws _).trans (skip_cons hc _)
    exact ⟨s1, hskip, hs, h.tail hr (by rw [hskip]; exact List.suffix_append ..)⟩

theorem skip (h : Text line ts s) : Text line ts (skip s) := by
  refine ⟨h.ok, ?_, (skip_suffix s).trans h.suffix⟩
  cases ts with
  | nil =>
    rw [h.skip_nil]
    exact .nil nofun
  | cons t ts =>
    cases t with
    | sym c =>
      obtain ⟨s1, hs, h1⟩ := h.skip_sym
      rw [hs]
      exact @Renders.sym [] _ _ _ nofun h1.renders
    | word w =>
      obtain ⟨s1, hs, hb, h1⟩ := h.skip_word
      rw [hs]
      exact @Renders.word [] _ _ _ nofun hb h1.renders

theorem length_le (h : Text line ts s) : ts.length ≤ s.length := by
  obtain ⟨hok, h, -⟩ := h
  induction h with
  | nil hws => exact Nat.zero_le _
  | sym hws h ih =>
    have := ih fun t ht => hok t (List.mem_cons_of_mem _ ht)
    simp only [List.length_cons, List.length_append]
    omega
  | @word ws w s ts hws hs h ih =>
    have hw : IsWord w := hok _ List.mem_cons_self
    have := ih fun t ht => hok t (List.mem_cons_of_mem _ ht)
    have hpos : 0 < w.length := List.length_pos_iff.mpr hw.1
    simp only [List.length_cons, List.length_append]
    omega

end Text

/-- The next token is one of the symbols `toks`. -/
def next (ts : List Tok) (toks : List Char) : Bool :=
  match ts with
  | .sym c :: _ => toks.contains c
  | _ => false

theorem peek_eq (h : Text line ts s) {toks : List Char} (htoks : toks.all isSymbol = true) :
    peek s toks = next ts toks := by
  unfold peek next
  cases ts with
  | nil => rw [h.skip_nil]
  | cons t ts =>
    cases t with
    | sym c =>
      obtain ⟨s1, hs, -⟩ := h.skip_sym
      rw [hs]
    | word w =>
      obtain ⟨s1, hs, -⟩ := h.skip_word
      have hw := h.head
      obtain ⟨c, w, rfl⟩ := List.exists_cons_of_ne_nil hw.1
      rw [hs]
      simp only [List.cons_append, List.contains_eq_mem, decide_eq_false_iff_not]
      intro hc
      have := (isWord_iff.mp (hw.2 c List.mem_cons_self).1).2
      rw [List.all_eq_true.mp htoks c hc] at this
      cases this

theorem gettoken_sym (h : Text line (.sym c :: ts) s)
    (hword : c = '>' → ∃ w ts', ts = .word w :: ts') :
    ∃ p s', gettoken s = (c, p, s') ∧ Text line ts s' ∧ s'.length < s.length := by
  obtain ⟨s1, hs, h1⟩ := h.skip_sym
  have htoken : token (c :: s1) = (c, s1) := by
    unfold token
    split
    · cases ‹_ = _›
    · -- a second `>` would have to start the word
      rename_i s2 heq
      injection heq with hgt hs1
      subst hs1
      obtain ⟨w, ts', rfl⟩ := hword hgt
      have hw := h1.head
      obtain ⟨s3, hs3, -⟩ := h1.skip_word
      obtain ⟨d, w, rfl⟩ := List.exists_cons_of_ne_nil hw.1
      rw [skip_cons (by decide)] at hs3
      injection hs3 with hd _
      have := (isWord_iff.mp (hw.2 d List.mem_cons_self).1).2
      rw [← hd] at this
      exact absurd this (by decide)
    · rename_i heq
      injection heq with hc' hs'
      subst hc' hs'
      exact if_pos h.head
  refine ⟨⟨c :: s1, s1⟩, skip s1, ?_, h1.skip, ?_⟩
  · simp only [gettoken, hs, htoken]
  · have h1 := skip_length_le s1
    have h2 := skip_length_le s
    rw [hs, List.length_cons] at h2
    omega

theorem Text.read_sym (h : Text line (.sym c :: ts) s) (hc : c ≠ '>') :
    peek s [c] = true ∧
      ∃ p s', gettoken (Shell.skip s) = (c, p, s') ∧ Text line ts s' ∧ s'.length < s.length := by
  have hc' : isSymbol c = true := h.head
  obtain ⟨p, s', hg, h', hlt⟩ := gettoken_sym h.skip fun he => absurd he hc
  refine ⟨?_, p, s', hg, h', hlt.trans_le (skip_length_le s)⟩
  rw [peek_eq h (by simp [hc'])]
  simp [next]

theorem dropWhile_word (hw : IsWord w) (hb : Boundary s) : (w ++ s).dropWhile isWord = s := by
  have hall : ∀ c ∈ w, isWord c = true := fun c hc => (hw.2 c hc).1
  rw [List.dropWhile_append_of_pos hall]
  cases s with
  | nil => rfl
  | cons c s => exact List.dropWhile_cons_of_neg (by simp [hb c rfl])

theorem gettoken_word (h : Text line (.word w :: ts) s) :
    ∃ p s', gettoken s = ('a', p, s') ∧ Points line p w ∧ Text line ts s' ∧
      s'.length ≤ s.length := by
  have hw : IsWord w := h.head
  obtain ⟨s1, hs, hb, h1⟩ := h.skip_word
  have htoken : token (w ++ s1) = ('a', s1) := by
    obtain ⟨d, w', hw'⟩ := List.exists_cons_of_ne_nil hw.1
    have hd := (isWord_iff.mp (hw.2 d (by simp [hw'])).1).2
    rw [hw', List.cons_append]
    unfold token
    split
    · cases ‹_ = _›
    · rename_i heq
      injection heq with hgt _
      rw [hgt] at hd
      exact absurd hd (by decide)
    · rename_i heq
      injection heq with hc' hs'
      subst hc' hs'
      rw [if_neg (by simp [hd]), ← List.cons_append, ← hw', dropWhile_word hw hb]
  refine ⟨⟨w ++ s1, s1⟩, skip s1, ?_, ⟨hw, rfl, hb, hs ▸ h.skip.suffix⟩, h1.skip, ?_⟩
  · simp only [gettoken, hs, htoken]
  · have h1 := skip_length_le s1
    have h2 := skip_length_le s
    rw [hs, List.length_append] at h2
    omega

theorem gettoken_nil (h : Text line [] s) : ∃ p, gettoken s = (nul, p, []) :=
  ⟨⟨[], []⟩, by simp only [gettoken, h.skip_nil]; rfl⟩

end Tokens

/-! ## Parsing -/

/-- A redirection as read, and as printed. -/
structure SameRedir (line : List Char) (r : Redir Ptr) (r' : Redir (List Char)) : Prop where
  file : Points line r.file r'.file
  mode : r.mode = r'.mode
  fd : r.fd = r'.fd

/-- The tree has the words of `t`. -/
inductive Matches (line : List Char) : Cmd Ptr → Cmd (List Char) → Prop where
  | exec {argv : List Ptr} {ws : List (List Char)} (h : List.Forall₂ (Points line) argv ws) :
      Matches line (.exec argv) (.exec ws)
  | redir {c : Cmd Ptr} {t : Cmd (List Char)} {p : Ptr} {w : List Char} {mode fd : Nat}
      (h : Matches line c t) (hp : Points line p w) :
      Matches line (.redir c p mode fd) (.redir t w mode fd)
  | pipe {c c' : Cmd Ptr} {t t' : Cmd (List Char)} (h : Matches line c t)
      (h' : Matches line c' t') : Matches line (.pipe c c') (.pipe t t')
  | list {c c' : Cmd Ptr} {t t' : Cmd (List Char)} (h : Matches line c t)
      (h' : Matches line c' t') : Matches line (.list c c') (.list t t')
  | back {c : Cmd Ptr} {t : Cmd (List Char)} (h : Matches line c t) :
      Matches line (.back c) (.back t)

variable {t : Cmd (List Char)}

theorem Matches.wrap {line : List Char} {c : Cmd Ptr} (h : Matches line c t)
    {rs : List (Redir Ptr)} {rs' : List (Redir (List Char))}
    (hrs : List.Forall₂ (SameRedir line) rs rs') : Matches line (c.wrap rs) (t.wrap rs') := by
  induction hrs generalizing c t with
  | nil => exact h
  | @cons r r' rs rs' hr _ ih =>
    refine ih ?_
    show Matches line (.redir c r.file r.mode r.fd) (.redir t r'.file r'.mode r'.fd)
    rw [hr.mode, hr.fd]
    exact .redir h hr.file

/-- A redirection that can be printed. -/
def Redir.Ok (r : Redir (List Char)) : Prop :=
  IsWord r.file ∧ (r.mode = 0 ∧ r.fd = 0 ∨ r.mode = 0x201 ∧ r.fd = 1)

theorem Redir.Ok.toks {r : Redir (List Char)} (h : r.Ok) : ∀ t ∈ r.toks, t.Ok := by
  refine List.forall_mem_cons.mpr ⟨?_, List.forall_mem_singleton.mpr h.1⟩
  show isSymbol _ = true
  split <;> rfl

theorem length_redirToks (rs : List (Redir (List Char))) :
    (rs.flatMap Redir.toks).length = 2 * rs.length := by
  induction rs with
  | nil => rfl
  | cons r rs ih =>
    rw [List.flatMap_cons, List.length_append, ih, List.length_cons]
    simp only [Redir.toks, List.length_cons, List.length_nil]
    omega

/-- The tokens are at their end, or the next one is one of the symbols. -/
def Follow (ts : List Tok) (toks : List Char) : Prop := ts = [] ∨ next ts toks = true

section Parsing

variable {line s : List Char} {ts : List Tok}

theorem Follow.next_eq_false {toks toks' : List Char} (h : Follow ts toks)
    (hne : toks.all (fun c => !toks'.contains c) = true) : next ts toks' = false := by
  rcases h with rfl | h
  · rfl
  · unfold next at h ⊢
    split at h
    · simp only [List.contains_iff_mem] at h
      simpa using List.all_eq_true.mp hne _ h
    · cases h

theorem Follow.mono {toks toks' : List Char} (h : Follow ts toks)
    (hsub : toks.all (toks'.contains ·) = true) : Follow ts toks' := by
  refine h.imp_right fun h => ?_
  unfold next at h ⊢
  split at h
  · simp only [List.contains_iff_mem] at h ⊢
    exact List.contains_iff_mem.mp (List.all_eq_true.mp hsub _ h)
  · cases h

/-- `peek` for a symbol that does not follow. -/
theorem Follow.peek_eq_false {toks toks' : List Char} (hfollow : Follow ts toks)
    (h : Text line ts s) (hsym : toks'.all isSymbol = true)
    (hne : toks.all (fun c => !toks'.contains c) = true) : peek s toks' = false :=
  (peek_eq h hsym).trans (hfollow.next_eq_false hne)

theorem parseredirs_fuel (hnext : next ts ['<', '>'] = false) (rs : List (Redir (List Char)))
    (hrs : ∀ r ∈ rs, r.Ok) :
    ∀ {n : Nat} {s : List Char}, rs.length < n → Text line (rs.flatMap Redir.toks ++ ts) s →
      ∃ rs' s', parseredirs n s = .ok (rs', s') ∧ List.Forall₂ (SameRedir line) rs' rs ∧
        Text line ts s' ∧ s'.length ≤ s.length := by
  induction rs with
  | nil =>
    intro n s hn h
    obtain ⟨n, rfl⟩ := Nat.exists_eq_succ_of_ne_zero (Nat.ne_of_gt hn)
    refine ⟨[], skip s, ?_, .nil, h.skip, skip_length_le s⟩
    rw [parseredirs, peek_eq h rfl]
    simp only [List.flatMap_nil, List.nil_append, hnext]
    rfl
  | cons r rs ih =>
    intro n s hn h
    obtain ⟨n, rfl⟩ := Nat.exists_eq_succ_of_ne_zero (Nat.ne_of_gt (Nat.zero_lt_of_lt hn))
    have hr : r.Ok := hrs r List.mem_cons_self
    set d : Char := if r.fd = 0 then '<' else '>' with hd
    have h' : Text line (.sym d :: .word r.file :: (rs.flatMap Redir.toks ++ ts)) s := by
      simpa [Redir.toks, hd] using h
    have hpeek : peek s ['<', '>'] = true := by
      rw [peek_eq h' rfl, hd, next]
      split <;> decide
    obtain ⟨p1, s1, hg1, h1, hlt1⟩ := gettoken_sym h'.skip fun _ => ⟨_, _, rfl⟩
    obtain ⟨p, s2, hg2, hpoints, h2, hlt2⟩ := gettoken_word h1
    have hle := skip_length_le s
    obtain ⟨rs', s', hp, hall, h3, hlt3⟩ :=
      ih (fun r h => hrs r (List.mem_cons_of_mem _ h)) (Nat.lt_of_succ_lt_succ hn) h2
    refine ⟨redircmd d p :: rs', s', ?_, .cons ?_ hall, h3, by omega⟩
    · rw [parseredirs]
      simp only [hpeek, if_true, hg1, hg2, hp, ne_eq, not_true_eq_false, if_false]
    · rw [hd]
      rcases hr.2 with ⟨hm, hf⟩ | ⟨hm, hf⟩
      · simp only [hf, if_true, redircmd]
        exact ⟨hpoints, hm.symm, hf.symm⟩
      · simp only [hf, redircmd]
        exact ⟨hpoints, hm.symm, hf.symm⟩

/-- Where `parseredirs` is called, its fuel is enough. -/
theorem parseredirs_spec (hnext : next ts ['<', '>'] = false) (rs : List (Redir (List Char)))
    (hrs : ∀ r ∈ rs, r.Ok) (h : Text line (rs.flatMap Redir.toks ++ ts) s) :
    ∃ rs' s', parseredirs (s.length + 1) s = .ok (rs', s') ∧
      List.Forall₂ (SameRedir line) rs' rs ∧ Text line ts s' ∧ s'.length ≤ s.length := by
  have hlen := h.length_le
  rw [List.length_append, length_redirToks] at hlen
  exact parseredirs_fuel hnext rs hrs (by omega) h

/-- The loop of `parseexec` ends. -/
theorem parseargs_nil (hfollow : Follow ts ['|', ')', '&', ';']) (h : Text line ts s) (n : Nat)
    (argv : List Ptr) (rs : List (Redir Ptr)) :
    ∃ s', parseargs (n + 1) s argv rs = .ok (argv, rs, s') ∧ Text line ts s' ∧
      s'.length ≤ s.length := by
  rw [parseargs, peek_eq h rfl]
  rcases hfollow with rfl | hnext
  · -- the end of the line
    obtain ⟨p, hg⟩ := gettoken_nil h.skip
    exact ⟨[], by simp [next, hg], ⟨nofun, .nil nofun, List.nil_suffix⟩, Nat.zero_le _⟩
  · exact ⟨skip s, by simp [hnext], h.skip, skip_length_le s⟩

/-- The loop of `parseexec` reads the words that are there, and the redirections behind the last
one. -/
theorem parseargs_spec (hfollow : Follow ts ['|', ')', '&', ';']) (rs : List (Redir (List Char)))
    (hrs : ∀ r ∈ rs, r.Ok) (ws : List (List Char)) (hor : ws ≠ [] ∨ rs = []) :
    ∀ (argv : List Ptr) (rs0 : List (Redir Ptr)) {n : Nat} {s : List Char}, ws.length < n →
      argv.length + ws.length < maxargs →
      Text line (ws.map .word ++ (rs.flatMap Redir.toks ++ ts)) s →
      ∃ argv' rs' s', parseargs n s argv rs0 = .ok (argv ++ argv', rs0 ++ rs', s') ∧
        List.Forall₂ (Points line) argv' ws ∧ List.Forall₂ (SameRedir line) rs' rs ∧
        Text line ts s' ∧ s'.length ≤ s.length := by
  induction ws with
  | nil =>
    intro argv rs0 n s hn _ h
    obtain ⟨n, rfl⟩ := Nat.exists_eq_succ_of_ne_zero (Nat.ne_of_gt hn)
    obtain rfl : rs = [] := by simpa using hor
    obtain ⟨s', hp, h', hle⟩ := parseargs_nil hfollow h n argv rs0
    exact ⟨[], [], s', by simpa using hp, .nil, .nil, h', hle⟩
  | cons w ws ih =>
    intro argv rs0 n s hn hargs h
    obtain ⟨n, rfl⟩ := Nat.exists_eq_succ_of_ne_zero (Nat.ne_of_gt (Nat.zero_lt_of_lt hn))
    have hpeek : peek s ['|', ')', '&', ';'] = false := peek_eq h rfl
    obtain ⟨p, s1, hg, hp, h1, hle1⟩ := gettoken_word h.skip
    have hle := skip_length_le s
    rw [List.length_cons] at hn hargs
    have hroom : ¬ maxargs ≤ argv.length + 1 := by omega
    have hunfold : ∀ {rs' s2}, parseredirs (s1.length + 1) s1 = .ok (rs', s2) →
        parseargs (n + 1) s argv rs0 = parseargs n s2 (argv ++ [p]) (rs0 ++ rs') := by
      intro rs' s2 hr
      rw [parseargs]
      simp only [hpeek, hg, if_neg hroom, hr]
      rfl
    cases ws with
    | nil =>
      -- the last word: the redirections follow
      obtain ⟨rs', s2, hpr, hall, h2, hle2⟩ :=
        parseredirs_spec (hfollow.next_eq_false rfl) rs hrs h1
      obtain ⟨n, rfl⟩ := Nat.exists_eq_succ_of_ne_zero (show n ≠ 0 by simp at hn; omega)
      obtain ⟨s', hpa, h3, hle3⟩ := parseargs_nil hfollow h2 n (argv ++ [p]) (rs0 ++ rs')
      exact ⟨[p], rs', s', (hunfold hpr).trans hpa, .cons hp .nil, hall, h3, by omega⟩
    | cons w' ws =>
      -- a word follows: there are no redirections yet
      obtain ⟨rs', s2, hpr, hall, h2, hle2⟩ := parseredirs_spec rfl [] nofun h1
      cases hall
      obtain ⟨argv', rs', s', hpa, hallp, hallr, h3, hle3⟩ := ih (.inl (List.cons_ne_nil _ _))
        (argv ++ [p]) (rs0 ++ []) (n := n) (by omega)
        (by simp only [List.length_append, List.length_cons, List.length_nil] at hargs ⊢; omega) h2
      refine ⟨p :: argv', rs', s', ?_, .cons hp hallp, hallr, h3, by omega⟩
      rw [hunfold hpr]
      simpa using hpa

theorem parsebacks_fuel (hnext : next ts ['&'] = false) (k : Nat) :
    ∀ {n : Nat} {s : List Char} {c : Cmd Ptr}, k < n →
      Text line (List.replicate k (.sym '&') ++ ts) s →
      ∃ s', parsebacks n c s = .ok (Cmd.back^[k] c, s') ∧ Text line ts s' ∧
        s'.length ≤ s.length := by
  induction k with
  | zero =>
    intro n s c hn h
    obtain ⟨n, rfl⟩ := Nat.exists_eq_succ_of_ne_zero (Nat.ne_of_gt hn)
    have h' : Text line ts s := by simpa using h
    refine ⟨skip s, ?_, h'.skip, skip_length_le s⟩
    rw [parsebacks, peek_eq h' rfl, hnext]
    rfl
  | succ k ih =>
    intro n s c hn h
    obtain ⟨n, rfl⟩ := Nat.exists_eq_succ_of_ne_zero (Nat.ne_of_gt (Nat.zero_lt_of_lt hn))
    rw [List.replicate_succ, List.cons_append] at h
    obtain ⟨hpeek, p, s1, hg, h1, hlt⟩ := h.read_sym (by decide)
    obtain ⟨s', hb, h2, hle⟩ := ih (c := .back c) (Nat.lt_of_succ_lt_succ hn) h1
    refine ⟨s', ?_, h2, by omega⟩
    rw [parsebacks, hpeek, hg]
    simpa using hb

end Parsing

/-! ## Trees -/

/-- The parse function `f`, given enough fuel, reads the tokens as the tree `t`, when one of the
symbols `follow` comes next. -/
def Parses (line : List Char) (f : Nat → List Char → Except Halt (Cmd Ptr × List Char)) (fuel : Nat)
    (follow : List Char) (toks : List Tok) (t : Cmd (List Char)) : Prop :=
  ∀ ⦃ts : List Tok⦄ ⦃s : List Char⦄ ⦃n : Nat⦄, Follow ts follow → Text line (toks ++ ts) s →
    4 * s.length + fuel ≤ n →
    ∃ c s', f n s = .ok (c, s') ∧ Matches line c t ∧ Text line ts s' ∧ s'.length ≤ s.length

theorem bracket_ok {n k : Nat} {ts : List Tok} (h : ∀ x ∈ ts, x.Ok) :
    ∀ x ∈ bracket n k ts, x.Ok := by
  unfold bracket
  split
  · exact h
  · exact List.forall_mem_cons.mpr
      ⟨rfl, List.forall_mem_append.mpr ⟨h, List.forall_mem_singleton.mpr rfl⟩⟩

theorem toks_ok (h : t.Wf) : ∀ x ∈ t.toks, x.Ok := by
  induction t with
  | exec argv => exact List.forall_mem_map.mpr h.2
  | redir cmd file mode fd ih =>
    exact List.forall_mem_append.mpr
      ⟨bracket_ok (ih h.1), Redir.Ok.toks (r := ⟨file, mode, fd⟩) h.2⟩
  | pipe left right ihl ihr | list left right ihl ihr =>
    exact List.forall_mem_append.mpr
      ⟨bracket_ok (ihl h.1), List.forall_mem_cons.mpr ⟨rfl, bracket_ok (ihr h.2)⟩⟩
  | back cmd ih =>
    exact List.forall_mem_append.mpr ⟨bracket_ok (ih h), List.forall_mem_singleton.mpr rfl⟩

def Cmd.size {α : Type} : Cmd α → Nat
  | .exec _ => 1
  | .redir cmd _ _ _ => cmd.size + 1
  | .pipe left right => left.size + right.size + 1
  | .list left right => left.size + right.size + 1
  | .back cmd => cmd.size + 1

/-- A tree is redirections around a command, or something in parentheses. -/
theorem exists_wrap (h : t.Wf) :
    ∃ (c : Cmd (List Char)) (rs : List (Redir (List Char))), t = c.wrap rs ∧ c.Wf ∧
      (∀ r ∈ rs, r.Ok) ∧ c.size + rs.length ≤ t.size ∧
      bracket 0 t.level t.toks = bracket 0 c.level c.toks ++ rs.flatMap Redir.toks ∧
      ((∃ ws, c = .exec ws) ∨ 1 ≤ c.level) := by
  induction t with
  | exec argv => exact ⟨_, [], rfl, h, nofun, Nat.le_refl _, by simp, .inl ⟨_, rfl⟩⟩
  | redir cmd file mode fd ih =>
    obtain ⟨c, rs, rfl, hc, hrs, hsize, htoks, hor⟩ := ih h.1
    refine ⟨c, rs ++ [⟨file, mode, fd⟩], ?_, hc, ?_, ?_, ?_, hor⟩
    · simp [Cmd.wrap]
    · exact List.forall_mem_append.mpr ⟨hrs, List.forall_mem_singleton.mpr h.2⟩
    · simp only [List.length_append, List.length_singleton, Cmd.size]
      omega
    · show bracket 0 _ (c.wrap rs).toks ++ Redir.toks ⟨file, mode, fd⟩ = _
      rw [htoks, List.flatMap_append, List.append_assoc]
      simp
  | pipe | list | back => exact ⟨_, [], rfl, h, nofun, Nat.le_refl _, by simp, .inr (by simp [Cmd.level])⟩

/-- A tree is `&`s behind a pipeline, or behind something in parentheses. -/
theorem exists_backs (h : t.Wf) :
    ∃ c k, t = Cmd.back^[k] c ∧ c.Wf ∧ c.size + k ≤ t.size ∧
      bracket 2 t.level t.toks = bracket 1 c.level c.toks ++ List.replicate k (.sym '&') := by
  induction t with
  | back cmd ih =>
    obtain ⟨c, k, hk, hc, hsize, htoks⟩ := ih h
    refine ⟨c, k + 1, ?_, hc, ?_, ?_⟩
    · rw [Function.iterate_succ_apply', ← hk]
    · simp only [Cmd.size]
      omega
    · show bracket 2 _ cmd.toks ++ [.sym '&'] = _
      rw [htoks, List.replicate_succ', List.append_assoc]
  | exec | redir | pipe | list => exact ⟨_, 0, rfl, h, Nat.le_refl _, by simp [bracket, Cmd.level]⟩

theorem Matches.backs {line : List Char} {c : Cmd Ptr} (h : Matches line c t) (k : Nat) :
    Matches line (Cmd.back^[k] c) (Cmd.back^[k] t) := by
  induction k with
  | zero => exact h
  | succ k ih =>
    rw [Function.iterate_succ_apply', Function.iterate_succ_apply']
    exact .back ih

section Trees

variable {line : List Char} {ts ts' : List Tok} {t t' : Cmd (List Char)}

theorem parses_words {ws : List (List Char)} (rs : List (Redir (List Char)))
    (hws : (Cmd.exec ws).Wf) (hrs : ∀ r ∈ rs, r.Ok) :
    Parses line parseexec 2 ['|', ')', '&', ';'] (ws.map .word ++ rs.flatMap Redir.toks)
      ((Cmd.exec ws).wrap rs) := by
  intro ts s n hfollow h hn
  obtain ⟨n, rfl⟩ : ∃ m, n = m + 1 := ⟨n - 1, by omega⟩
  rw [List.append_assoc] at h
  have hparen : next (ws.map Tok.word ++ (rs.flatMap Redir.toks ++ ts)) ['('] = false := by
    cases ws with
    | cons w ws => rfl
    | nil =>
      cases rs with
      | nil => exact hfollow.next_eq_false rfl
      | cons r rs =>
        simp only [List.map_nil, List.nil_append, List.flatMap_cons, Redir.toks, List.cons_append,
          next]
        split <;> rfl
  have hle := skip_length_le s
  have hunfold : ∀ {rs s1 argv rs' s2},
      parseredirs ((skip s).length + 1) (skip s) = .ok (rs, s1) →
      parseargs (s1.length + 1) s1 [] rs = .ok (argv, rs', s2) →
      parseexec (n + 1) s = .ok ((Cmd.exec argv).wrap rs', s2) := by
    intro rs s1 argv rs' s2 hr ha
    rw [parseexec, peek_eq h rfl, hparen]
    simp only [hr, ha]
    rfl
  cases ws with
  | nil =>
    -- the redirections come first, and no word
    obtain ⟨rs', s1, hpr, hall, h1, hle1⟩ :=
      parseredirs_spec (hfollow.next_eq_false rfl) rs hrs h.skip
    obtain ⟨s2, hpa, h2, hle2⟩ := parseargs_nil hfollow h1 s1.length [] rs'
    exact ⟨_, s2, hunfold hpr hpa, Matches.wrap (.exec .nil) hall, h2, by omega⟩
  | cons w ws =>
    obtain ⟨rs', s1, hpr, hall, h1, hle1⟩ := parseredirs_spec rfl [] nofun h.skip
    cases hall
    have hlen : ((w :: ws).map Tok.word ++ (rs.flatMap Redir.toks ++ ts)).length ≤ s1.length :=
      h1.length_le
    rw [List.length_append, List.length_map] at hlen
    obtain ⟨argv, rs2, s2, hpa, hargs, hall, h2, hle2⟩ := parseargs_spec hfollow rs hrs (w :: ws)
      (.inl (List.cons_ne_nil _ _)) [] [] (n := s1.length + 1) (by omega) (by simpa using hws.1) h1
    exact ⟨_, s2, hunfold hpr hpa, Matches.wrap (.exec hargs) hall, h2, by omega⟩

theorem parses_block {c : Cmd (List Char)} (rs : List (Redir (List Char)))
    (hrs : ∀ r ∈ rs, r.Ok) (hparse : Parses line parseline 4 [')'] c.toks c) :
    Parses line parseexec 2 ['|', ')', '&', ';']
      (.sym '(' :: (c.toks ++ [.sym ')']) ++ rs.flatMap Redir.toks) (c.wrap rs) := by
  intro ts s n hfollow h hn
  have h' : Text line (.sym '(' :: (c.toks ++ .sym ')' :: (rs.flatMap Redir.toks ++ ts))) s := by
    simpa using h
  have hlen := h'.length_le
  rw [List.length_cons] at hlen
  obtain ⟨n, rfl⟩ : ∃ m, n = m + 2 := ⟨n - 2, by omega⟩
  have hle := skip_length_le s
  -- the parenthesis, the line, the parenthesis, and the redirections
  obtain ⟨hpeek1, p1, s1, hg1, h1, hlt1⟩ := h'.skip.read_sym (by decide)
  obtain ⟨cmd, s2, hp, hm, h2, hle2⟩ := hparse (n := n) (.inr rfl) h1 (by omega)
  obtain ⟨hpeek2, p3, s3, hg3, h3, hlt3⟩ := h2.read_sym (by decide)
  obtain ⟨rs', s4, hpr, hall, h4, hle4⟩ :=
    parseredirs_spec (hfollow.next_eq_false rfl) rs hrs h3
  refine ⟨cmd.wrap rs', s4, ?_, hm.wrap hall, h4, by omega⟩
  rw [parseexec, peek_eq h' rfl, parseblock, hpeek1, hg1]
  simp only [next, List.contains_cons, beq_self_eq_true, Bool.true_or, if_true, hp, hpeek2, hg3, hpr]

theorem parses_pipe_of_exec (h : Parses line parseexec 2 ['|', ')', '&', ';'] ts t) :
    Parses line parsepipe 3 [')', '&', ';'] ts t := by
  intro rest s n hfollow hr hn
  obtain ⟨n, rfl⟩ : ∃ m, n = m + 1 := ⟨n - 1, by omega⟩
  obtain ⟨c, s1, hp, hm, h1, hle⟩ := h (hfollow.mono rfl) hr (n := n) (by omega)
  refine ⟨c, skip s1, ?_, hm, h1.skip, (skip_length_le s1).trans hle⟩
  rw [parsepipe, hp]
  dsimp only
  rw [hfollow.peek_eq_false h1 rfl rfl]
  rfl

theorem parses_pipe (h : Parses line parseexec 2 ['|', ')', '&', ';'] ts t)
    (h' : Parses line parsepipe 3 [')', '&', ';'] ts' t') :
    Parses line parsepipe 3 [')', '&', ';'] (ts ++ .sym '|' :: ts') (.pipe t t') := by
  intro rest s n hfollow hr hn
  obtain ⟨n, rfl⟩ : ∃ m, n = m + 1 := ⟨n - 1, by omega⟩
  rw [List.append_assoc, List.cons_append] at hr
  obtain ⟨c, s1, hp, hm, h1, hle⟩ := h (.inr rfl) hr (n := n) (by omega)
  obtain ⟨hpeek, p, s2, hg, h2, hlt⟩ := h1.read_sym (by decide)
  obtain ⟨c', s3, hp', hm', h3, hle'⟩ := h' hfollow h2 (n := n) (by omega)
  refine ⟨.pipe c c', s3, ?_, .pipe hm hm', h3, by omega⟩
  rw [parsepipe, hp]
  simp only [hpeek, if_true, hg, hp']

variable {k : Nat}

/-- A pipeline and its `&`s, up to where a line ends or goes on with `;`. -/
theorem parsepipe_backs {rest : List Tok} (h : Parses line parsepipe 3 [')', '&', ';'] ts t)
    (hfollow : Follow rest [')', ';']) {s : List Char} {n : Nat}
    (hr : Text line (ts ++ (List.replicate k (.sym '&') ++ rest)) s) (hn : 4 * s.length + 3 ≤ n) :
    ∃ c1 s1 c2 s2, parsepipe n s = .ok (c1, s1) ∧ parsebacks (s1.length + 1) c1 s1 = .ok (c2, s2) ∧
      Matches line c2 (Cmd.back^[k] t) ∧ Text line rest s2 ∧ s2.length ≤ s.length := by
  have hfollow' : Follow (List.replicate k (Tok.sym '&') ++ rest) [')', '&', ';'] := by
    cases k with
    | succ k => exact .inr rfl
    | zero => exact hfollow.mono rfl
  obtain ⟨c1, s1, hp, hm, h1, hle⟩ := h hfollow' hr hn
  have hlen := h1.length_le
  rw [List.length_append, List.length_replicate] at hlen
  obtain ⟨s2, hb, h2, hle2⟩ := parsebacks_fuel (hfollow.next_eq_false rfl) k (c := c1)
    (n := s1.length + 1) (by omega) h1
  exact ⟨c1, s1, _, s2, hp, hb, hm.backs k, h2, hle2.trans hle⟩

theorem parses_line (h : Parses line parsepipe 3 [')', '&', ';'] ts t) :
    Parses line parseline 4 [')'] (ts ++ List.replicate k (.sym '&')) (Cmd.back^[k] t) := by
  intro rest s n hfollow hr hn
  obtain ⟨n, rfl⟩ : ∃ m, n = m + 1 := ⟨n - 1, by omega⟩
  rw [List.append_assoc] at hr
  obtain ⟨c1, s1, c2, s2, hp, hb, hm, h2, hle⟩ :=
    parsepipe_backs h (hfollow.mono rfl) hr (n := n) (by omega)
  refine ⟨c2, skip s2, ?_, hm, h2.skip, (skip_length_le s2).trans hle⟩
  rw [parseline, hp]
  dsimp only
  rw [hb]
  dsimp only
  rw [hfollow.peek_eq_false h2 rfl rfl]
  rfl

theorem parses_list (h : Parses line parsepipe 3 [')', '&', ';'] ts t)
    (h' : Parses line parseline 4 [')'] ts' t') :
    Parses line parseline 4 [')'] (ts ++ List.replicate k (.sym '&') ++ .sym ';' :: ts')
      (.list (Cmd.back^[k] t) t') := by
  intro rest s n hfollow hr hn
  obtain ⟨n, rfl⟩ : ∃ m, n = m + 1 := ⟨n - 1, by omega⟩
  rw [List.append_assoc, List.cons_append, List.append_assoc] at hr
  obtain ⟨c1, s1, c2, s2, hp, hb, hm, h2, hle⟩ :=
    parsepipe_backs h (.inr rfl) hr (n := n) (by omega)
  obtain ⟨hpeek, p, s3, hg, h3, hlt⟩ := h2.read_sym (by decide)
  obtain ⟨c', s4, hp', hm', h4, hle'⟩ := h' hfollow h3 (n := n) (by omega)
  refine ⟨.list c2 c', s4, ?_, .list hm hm', h4, by omega⟩
  rw [parseline, hp]
  simp only [hb, hpeek, if_true, hg, hp']

/-- What the three levels of the grammar make of a tree. -/
structure Reads (line : List Char) (t : Cmd (List Char)) : Prop where
  exec : Parses line parseexec 2 ['|', ')', '&', ';'] (bracket 0 t.level t.toks) t
  pipe : Parses line parsepipe 3 [')', '&', ';'] (bracket 1 t.level t.toks) t
  line : Parses line parseline 4 [')'] t.toks t

theorem reads (line : List Char) (n : Nat) :
    ∀ t : Cmd (List Char), t.size < n → t.Wf → Reads line t := by
  induction n with
  | zero => exact fun t ht => absurd ht (Nat.not_lt_zero _)
  | succ n ih =>
    intro t ht hwf
    have hsub : ∀ t' : Cmd (List Char), t'.size < t.size → t'.Wf → Reads line t' := fun t' h =>
      ih t' (by omega)
    -- a tree in parentheses is read as a line
    have hparens : Parses line parseline 4 [')'] t.toks t → 1 ≤ t.level →
        Parses line parseexec 2 ['|', ')', '&', ';'] (bracket 0 t.level t.toks) t := by
      intro hl hlevel
      have := parses_block [] nofun hl
      rw [bracket, if_neg (by omega)]
      simpa [Cmd.wrap] using this
    cases t with
    | exec ws =>
      have he : Parses line parseexec 2 ['|', ')', '&', ';'] (Cmd.exec ws).toks (.exec ws) := by
        simpa [Cmd.wrap, Cmd.toks] using parses_words [] hwf nofun
      have hp := parses_pipe_of_exec he
      exact ⟨he, hp, by simpa using parses_line (k := 0) hp⟩
    | redir cmd file mode fd =>
      obtain ⟨c, rs, heq, hc, hrs, hsize, htoks, hor⟩ := exists_wrap hwf
      have he : Parses line parseexec 2 ['|', ')', '&', ';'] (Cmd.redir cmd file mode fd).toks
          (.redir cmd file mode fd) := by
        have htoks' : (Cmd.redir cmd file mode fd).toks
            = bracket 0 c.level c.toks ++ rs.flatMap Redir.toks := htoks
        rw [htoks', heq]
        rcases hor with ⟨ws, rfl⟩ | hlevel
        · exact parses_words rs hc hrs
        have hlt : c.size < (Cmd.redir cmd file mode fd).size := by
          have : rs ≠ [] := by
            rintro rfl
            rw [Cmd.wrap, List.foldl_nil] at heq
            rw [← heq] at hlevel
            exact absurd hlevel (by simp [Cmd.level])
          have := List.length_pos_iff.mpr this
          omega
        rw [bracket, if_neg (by omega)]
        exact parses_block rs hrs (hsub c hlt hc).line
      have hp := parses_pipe_of_exec he
      exact ⟨he, hp, by simpa using parses_line (k := 0) hp⟩
    | pipe left right =>
      have hleft := hsub left (by simp only [Cmd.size]; omega) hwf.1
      have hright := hsub right (by simp only [Cmd.size]; omega) hwf.2
      have hp : Parses line parsepipe 3 [')', '&', ';'] (Cmd.pipe left right).toks
          (.pipe left right) := parses_pipe hleft.exec hright.pipe
      have hl : Parses line parseline 4 [')'] (Cmd.pipe left right).toks (.pipe left right) := by
        simpa using parses_line (k := 0) hp
      exact ⟨hparens hl (by simp [Cmd.level]), hp, hl⟩
    | back cmd =>
      obtain ⟨c, k, heq, hc, hsize, htoks⟩ := exists_backs (t := .back cmd) hwf
      have hlt : c.size < (Cmd.back cmd).size := by
        cases k with
        | succ k => omega
        | zero =>
          rw [Function.iterate_zero_apply] at heq
          subst heq
          have := congrArg List.length htoks
          simp only [bracket, Cmd.level, Nat.le_refl, if_true, List.replicate_zero, List.append_nil,
            List.length_cons, List.length_append, List.length_nil, Nat.reduceLeDiff, if_false] at this
          omega
      have hl : Parses line parseline 4 [')'] (Cmd.back cmd).toks (.back cmd) := by
        have htoks' : (Cmd.back cmd).toks = bracket 1 c.level c.toks ++ List.replicate k (.sym '&') :=
          htoks
        rw [htoks', heq]
        exact parses_line (hsub c hlt hc).pipe
      have he := hparens hl (by simp [Cmd.level])
      exact ⟨he, parses_pipe_of_exec he, hl⟩
    | list left right =>
      obtain ⟨c, k, heq, hc, hsize, htoks⟩ := exists_backs (t := left) hwf.1
      have hright := hsub right (by simp only [Cmd.size]; omega) hwf.2
      have hl : Parses line parseline 4 [')'] (Cmd.list left right).toks (.list left right) := by
        have hbracket : bracket 3 right.level right.toks = right.toks :=
          if_pos (by cases right <;> simp [Cmd.level])
        have htoks' : (Cmd.list left right).toks
            = bracket 1 c.level c.toks ++ List.replicate k (.sym '&') ++ .sym ';' :: right.toks := by
          rw [Cmd.toks, htoks, hbracket]
        rw [htoks', heq]
        exact parses_list (hsub c (by simp only [Cmd.size]; omega) hc).pipe hright.line
      have he := hparens hl (by simp [Cmd.level])
      exact ⟨he, parses_pipe_of_exec he, hl⟩

end Trees

/-! ## Strings -/

/-- Where the strings of a command end. -/
def Cmd.ends : Cmd Ptr → List (List Char)
  | .exec argv => argv.map Ptr.stop
  | .redir cmd file _ _ => cmd.ends ++ [file.stop]
  | .pipe left right => left.ends ++ right.ends
  | .list left right => left.ends ++ right.ends
  | .back cmd => cmd.ends

theorem foldl_clear_apply (es : Nat) (argv : List Ptr) (m : Mem) (i : Nat) :
    argv.foldl (fun m p => m.clear es p.stop) m i
      = if i ∈ argv.map (fun p => pos es p.stop) then nul else m i := by
  induction argv generalizing m with
  | nil => rfl
  | cons p argv ih =>
    rw [List.foldl_cons, ih, Mem.clear, Function.update_apply]
    by_cases h : i = pos es p.stop <;> simp [h]

/-- `nulterminate` changes the line where a string ends, and nowhere else. -/
theorem nulterminate_apply (es : Nat) (c : Cmd Ptr) (m : Mem) (i : Nat) :
    nulterminate es c m i = if i ∈ c.ends.map (pos es) then nul else m i := by
  induction c generalizing m with
  | exec argv =>
    rw [nulterminate, foldl_clear_apply, Cmd.ends, List.map_map]
    rfl
  | redir cmd file mode fd ih =>
    rw [nulterminate, Mem.clear, Function.update_apply, ih, Cmd.ends]
    by_cases h : i = pos es file.stop <;> simp [h]
  | pipe left right ihl ihr | list left right ihl ihr =>
    rw [nulterminate, ihr, ihl, Cmd.ends, List.map_append]
    by_cases h : i ∈ right.ends.map (pos es) <;> simp [h]
  | back cmd ih => exact ih m

/-- A string ends in the line, where no word goes on. -/
theorem Matches.ends {line : List Char} {c : Cmd Ptr} (h : Matches line c t) :
    ∀ e ∈ c.ends, e <:+ line ∧ Boundary e := by
  have hpoints : ∀ {p : Ptr} {w : List Char}, Points line p w → p.stop <:+ line ∧ Boundary p.stop :=
    fun {p w} hp => ⟨(hp.start ▸ List.suffix_append w p.stop).trans hp.suffix, hp.stop⟩
  induction h with
  | exec h =>
    intro e he
    obtain ⟨p, hp, rfl⟩ := List.mem_map.mp he
    obtain ⟨i, rfl⟩ := List.mem_iff_get.mp hp
    exact hpoints ((List.forall₂_iff_get.mp h).2 i.1 i.2 (h.length_eq ▸ i.2))
  | redir h hp ih =>
    intro e he
    rcases List.mem_append.mp he with he | he
    · exact ih e he
    · obtain rfl := List.mem_singleton.mp he
      exact hpoints hp
  | pipe h h' ih ih' | list h h' ih ih' =>
    intro e he
    exact (List.mem_append.mp he).elim (ih e) (ih' e)
  | back h ih => exact ih

theorem pos_cons {c : Char} {s line : List Char} (h : c :: s <:+ line) :
    pos line.length s = pos line.length (c :: s) + 1 := by
  have := h.length_le
  simp only [pos, List.length_cons] at this ⊢
  omega

theorem getD_pos {s line : List Char} (h : s <:+ line) :
    line.getD (pos line.length s) nul = s.headD nul := by
  obtain ⟨pre, rfl⟩ := h
  have : pos (pre ++ s).length s = pre.length := by simp [pos]
  rw [this]
  cases s <;> simp

theorem pos_inj {s s' line : List Char} (h : s <:+ line) (h' : s' <:+ line)
    (heq : pos line.length s = pos line.length s') : s = s' := by
  have := h.length_le
  have := h'.length_le
  have hlen : s.length = s'.length := by
    simp only [pos] at heq
    omega
  exact (List.suffix_of_suffix_length_le h h' hlen.le).eq_of_length hlen

/-- The string at a word is the word: no string ends inside it. By induction on the word. -/
theorem string_eq {line stop : List Char} {ends : List (List Char)}
    (hends : ∀ e ∈ ends, e <:+ line ∧ Boundary e) {m : Mem}
    (hm : ∀ i, m i = if i ∈ ends.map (pos line.length) then nul else line.getD i nul)
    (hstop : stop ∈ ends) (w : List Char) :
    ∀ {n : Nat}, (∀ c ∈ w, isWord c = true ∧ c ≠ nul) → w ++ stop <:+ line → w.length < n →
      string m n (pos line.length (w ++ stop)) = w := by
  induction w with
  | nil =>
    intro n _ _ hn
    obtain ⟨n, rfl⟩ : ∃ k, n = k + 1 := ⟨n - 1, by simp at hn; omega⟩
    have : m (pos line.length stop) = nul := by
      rw [hm, if_pos (List.mem_map_of_mem hstop)]
    rw [List.nil_append, string, if_pos this]
  | cons c w ih =>
    intro n hw hline hn
    obtain ⟨n, rfl⟩ : ∃ k, n = k + 1 := ⟨n - 1, by simp at hn; omega⟩
    have hc : m (pos line.length (c :: w ++ stop)) = c := by
      rw [hm, if_neg, getD_pos hline]
      · rfl
      · intro hmem
        obtain ⟨e, he, hpos⟩ := List.mem_map.mp hmem
        have heq := pos_inj (hends e he).1 hline hpos
        have hb := (hends e he).2 c (by rw [heq]; rfl)
        rw [(hw c List.mem_cons_self).1] at hb
        cases hb
    rw [string, hc, if_neg (hw c List.mem_cons_self).2]
    have := ih (fun d hd => hw d (List.mem_cons_of_mem _ hd))
      ((List.suffix_cons c _).trans hline) (n := n) (by simpa using hn)
    rw [show pos line.length (c :: w ++ stop) + 1 = pos line.length (w ++ stop) from
      (pos_cons hline).symm, this]

theorem Matches.map_string {line : List Char} {c : Cmd Ptr} (h : Matches line c t)
    {f : Ptr → List Char} {ends : List (List Char)} (hends : ∀ e ∈ c.ends, e ∈ ends)
    (hf : ∀ p w, Points line p w → p.stop ∈ ends → f p = w) : c.map f = t := by
  induction h with
  | exec h =>
    have : ∀ {argv : List Ptr} {ws : List (List Char)}, List.Forall₂ (Points line) argv ws →
        (∀ e ∈ argv.map Ptr.stop, e ∈ ends) → argv.map f = ws := by
      intro argv ws h hends
      induction h with
      | nil => rfl
      | cons hp _ ih =>
        rw [List.map_cons, hf _ _ hp (hends _ List.mem_cons_self),
          ih fun e he => hends e (List.mem_cons_of_mem _ he)]
    rw [Cmd.map, this h hends]
  | redir h hp ih =>
    rw [Cmd.map, ih fun e he => hends e (List.mem_append_left _ he),
      hf _ _ hp (hends _ (List.mem_append_right _ List.mem_cons_self))]
  | pipe h h' ih ih' | list h h' ih ih' =>
    rw [Cmd.map, ih fun e he => hends e (List.mem_append_left _ he),
      ih' fun e he => hends e (List.mem_append_right _ he)]
  | back h ih => rw [Cmd.map, ih hends]

/-- What `parsecmd` makes of a line: the tree it prints, word for word. -/
theorem parsecmd_of_renders (t : Cmd (List Char)) (ht : t.Wf) (s : List Char)
    (hs : Renders t.toks s) :
    ∃ c m, parsecmd s = .ok (c, m) ∧
      c.map (fun p => string m (s.length + 1) (pos s.length p.start)) = t := by
  have hreads := (reads s (t.size + 1) t (Nat.lt_succ_self _) ht).line
  have htext : Text s (t.toks ++ []) s := by
    rw [List.append_nil]
    exact ⟨toks_ok ht, hs, List.suffix_refl s⟩
  obtain ⟨c, s', hp, hm, hrest, -⟩ := hreads (.inl rfl) htext (Nat.le_refl _)
  refine ⟨c, nulterminate s.length c fun i => s.getD i nul, ?_, ?_⟩
  · rw [parsecmd, hp]
    dsimp only
    rw [hrest.skip_nil]
    rfl
  · refine hm.map_string (fun e he => he) fun p w hpw hmem => ?_
    have hlen := hpw.suffix.length_le
    rw [hpw.start, List.length_append] at hlen
    rw [hpw.start]
    exact string_eq hm.ends (nulterminate_apply _ c _) hmem w hpw.word.2
      (hpw.start ▸ hpw.suffix) (by omega)

theorem boundary_cons {c : Char} {s : List Char} (h : isWord c = false) : Boundary (c :: s) := by
  rintro _ ⟨⟩
  exact h

/-- `(a|b)>f &;c`. -/
theorem parsecmd_of_renders_line :
    ∃ c m, parsecmd ['(', 'a', '|', 'b', ')', '>', 'f', ' ', '&', ';', 'c'] = .ok (c, m) ∧
      c.map (fun p => string m 12 (pos 11 p.start)) =
        .list (.back (.redir (.pipe (.exec [['a']]) (.exec [['b']])) ['f'] 0x201 1))
          (.exec [['c']]) := by
  refine parsecmd_of_renders _ ?_ _ ?_
  · simp [Cmd.Wf, IsWord, maxargs, isWord, isWhite, isSymbol, nul]
  · have hblank : ∀ c ∈ [' '], isWhite c = true := List.forall_mem_singleton.mpr rfl
    exact @Renders.sym [] _ _ _ nofun <| @Renders.word [] _ _ _ nofun (boundary_cons rfl) <|
      @Renders.sym [] _ _ _ nofun <| @Renders.word [] _ _ _ nofun (boundary_cons rfl) <|
      @Renders.sym [] _ _ _ nofun <| @Renders.sym [] _ _ _ nofun <|
      @Renders.word [] _ _ _ nofun (boundary_cons rfl) <| @Renders.sym [' '] _ _ _ hblank <|
      @Renders.sym [] _ _ _ nofun <| @Renders.word [] _ [] _ nofun nofun <| .nil nofun

end Xv6Mmap.Shell
