import Xv6Mmap.Lib.Buffer
import Xv6Mmap.Lib.Lines
import Xv6Mmap.Memmove

/-!
# `grep` (`grep.c`, `ulib.c:43-50, 95-106`)

`grep` reads into what is left of a fixed buffer, cuts the buffer at its newlines in place and moves
the line that has not ended to the front. The buffer is a function of the index, a `char *` into it
an index, and a C string that is only read the list of its characters. What the calls of `read`
return is the input of the model, chunk by chunk: a chunk is not empty and not longer than `grep`
asks for (`none` if it is).

* `grepLoop_eq`: the buffer holds the unfinished line between two reads, except that a chunk with no
  newline is thrown away together with it (`grepChunks`).
* **`grep_matching_iff`**: `grep` prints the matching lines of the input, for every pattern, exactly
  if a chunk without a newline comes only after the last newline.
-/

namespace Xv6Mmap.Grep

open Lib (lines unfinished Holds holds_nil holds_cons holds_append)
open Function (update update_self update_of_ne update_idem)

/-- `'\n'`. -/
def nl : Byte := 10#8

/-- `'^'`. -/
def caret : Byte := 94#8

/-- `'*'`. -/
def star : Byte := 42#8

/-- `'$'`. -/
def dollar : Byte := 36#8

/-- `'.'`. -/
def dot : Byte := 46#8

/-! ## The matcher -/

/-- `matchstar(c, re, text)`, with `matchhere(re, text)` as `here`. -/
def matchstar (here : List Byte → Bool) (c : Byte) : List Byte → Bool
  | [] => here []
  | x :: text => here (x :: text) || ((x == c || c == dot) && matchstar here c text)

/-- `matchhere(re, text)`. -/
def matchhere : List Byte → List Byte → Bool
  | [], _ => true
  | [c], text =>
    if c = dollar then text.isEmpty
    else
      match text with
      | [] => false
      | x :: _ => c == dot || c == x
  | c :: d :: re, text =>
    if d = star then matchstar (matchhere re) c text
    else
      match text with
      | [] => false
      | x :: text => (c == dot || c == x) && matchhere (d :: re) text

/-- The loop of `match`. -/
def matchFrom (re : List Byte) : List Byte → Bool
  | [] => matchhere re []
  | x :: text => matchhere re (x :: text) || matchFrom re text

/-- `match(re, text)`. -/
def match_ (re text : List Byte) : Bool :=
  match re with
  | [] => matchFrom re text
  | c :: tail => if c = caret then matchhere tail text else matchFrom re text

/-! ## The buffer -/

/-- `char buf[1024]`. -/
abbrev Buf := Nat → Byte

/-- `strchr(s, c)` in the `left` bytes up to the end of the buffer. -/
def strchr (buf : Buf) (c : Byte) : Nat → Nat → Option Nat
  | 0, _ => none
  | left + 1, s =>
    if buf s = 0#8 then none else if buf s = c then some s else strchr buf c left (s + 1)

/-- The C string at `s`, in the `left` bytes up to the end of the buffer. -/
def text (buf : Buf) : Nat → Nat → List Byte
  | 0, _ => []
  | left + 1, s => if buf s = 0#8 then [] else buf s :: text buf left (s + 1)

/-- `memmove(dst, src, n)` of `ulib.c` inside the buffer. -/
def memmove (buf : Buf) (dst src n : Nat) : Buf := Memmove.copyUp buf dst src n

/-- The bytes that `read` stores at `dst`. -/
def store (buf : Buf) (dst : Nat) : List Byte → Buf
  | [] => buf
  | x :: s => store (update buf dst x) (dst + 1) s

/-- The inner loop of `grep`: the buffer, `p` after it, and what it writes. -/
def lineLoop (pattern : List Byte) : Nat → Buf → Nat → Buf × Nat × List Byte
  | 0, buf, p => (buf, p, [])
  | fuel + 1, buf, p =>
    match strchr buf nl (1024 - p) p with
    | none => (buf, p, [])
    | some q =>
      let buf := update buf q 0#8
      if match_ pattern (text buf (1024 - p) p) then
        let buf := update buf q nl
        let r := lineLoop pattern fuel buf (q + 1)
        (r.1, r.2.1, (List.range' p (q + 1 - p)).map buf ++ r.2.2)
      else lineLoop pattern fuel buf (q + 1)

/-- The loop of `grep` from `m` on, for what the calls of `read` return until the end of the input:
what it writes. -/
def grepLoop (pattern : List Byte) : List (List Byte) → Buf → Nat → Option (List Byte)
  | [], _, _ => some []
  | c :: chunks, buf, m =>
    if c.length = 0 ∨ 1024 - m - 1 < c.length then none
    else
      let buf := store buf m c
      let m := m + c.length
      let buf := update buf m 0#8
      let (buf, p, out) := lineLoop pattern 1024 buf 0
      let m := if p = 0 then 0 else m
      if 0 < m then (grepLoop pattern chunks (memmove buf 0 p (m - p)) (m - p)).map (out ++ ·)
      else (grepLoop pattern chunks buf m).map (out ++ ·)

/-- `grep(pattern, fd)`. -/
def grep (pattern : List Byte) (buf : Buf) (chunks : List (List Byte)) : Option (List Byte) :=
  grepLoop pattern chunks buf 0

/-! ## What the buffer holds -/

section Buffer

variable {buf : Buf} {p q : Nat} {s t : List Byte} {x : Byte}

theorem store_of_lt (h : q < p) : store buf p s q = buf q := by
  induction s generalizing p buf with
  | nil => rfl
  | cons y s ih => rw [store, ih (by omega), update_of_ne (by omega)]

theorem holds_store : Holds (store buf p s) p s := by
  induction s generalizing p buf with
  | nil => exact holds_nil
  | cons y s ih =>
    rw [holds_cons, store]
    refine ⟨?_, ih⟩
    rw [store_of_lt (Nat.lt_succ_self p), update_self]

theorem memmove_apply {n dst src i : Nat} (hle : dst ≤ src) :
    memmove buf dst src n i = if dst ≤ i ∧ i < dst + n then buf (src + (i - dst)) else buf i := by
  unfold memmove
  induction n generalizing buf dst src with
  | zero => rw [Memmove.copyUp, if_neg (by omega)]
  | succ n ih =>
    rw [Memmove.copyUp, ih (by omega)]
    by_cases hin : dst + 1 ≤ i ∧ i < dst + 1 + n
    · rw [if_pos hin, if_pos (by omega), update_of_ne (by omega)]
      congr 1
      omega
    · rw [if_neg hin]
      by_cases hi : i = dst
      · rw [hi, update_self, if_pos (by omega), Nat.sub_self, Nat.add_zero]
      · rw [update_of_ne hi, if_neg (by omega)]

theorem holds_memmove (h : Holds buf p s) : Holds (memmove buf 0 p s.length) 0 s :=
  fun i hi => by
    rw [memmove_apply (Nat.zero_le p), if_pos (by omega), Nat.zero_add, Nat.sub_zero]
    exact h i hi

variable {left : Nat}

theorem strchr_of_holds (h : Holds buf p (s ++ [nl])) (hnul : 0#8 ∉ s) (hs : nl ∉ s)
    (hleft : s.length < left) : strchr buf nl left p = some (p + s.length) := by
  induction s generalizing p left with
  | nil =>
    obtain ⟨left, rfl⟩ := Nat.exists_eq_succ_of_ne_zero (Nat.ne_of_gt hleft)
    obtain ⟨hp, -⟩ := holds_cons.mp h
    rw [strchr, hp, if_neg (by decide), if_pos rfl, List.length_nil, Nat.add_zero]
  | cons y s ih =>
    obtain ⟨left, rfl⟩ := Nat.exists_eq_succ_of_ne_zero (Nat.ne_zero_of_lt hleft)
    rw [List.mem_cons, not_or] at hnul hs
    obtain ⟨hp, hrest⟩ := holds_cons.mp h
    rw [strchr, hp, if_neg (Ne.symm hnul.1), if_neg (Ne.symm hs.1),
      ih hrest hnul.2 hs.2 (Nat.lt_of_succ_lt_succ hleft), List.length_cons]
    congr 1
    omega

theorem strchr_of_not_mem (h : Holds buf p (s ++ [0#8])) (hs : nl ∉ s) :
    strchr buf nl left p = none := by
  induction s generalizing p left with
  | nil =>
    obtain ⟨hp, -⟩ := holds_cons.mp h
    cases left with
    | zero => rfl
    | succ left => rw [strchr, if_pos hp]
  | cons y s ih =>
    rw [List.mem_cons, not_or] at hs
    obtain ⟨hp, hrest⟩ := holds_cons.mp h
    cases left with
    | zero => rfl
    | succ left =>
      rw [strchr, hp, if_neg (Ne.symm hs.1), ih hrest hs.2]
      exact ite_self _

theorem text_of_holds (h : Holds buf p (s ++ [0#8])) (hnul : 0#8 ∉ s) (hleft : s.length < left) :
    text buf left p = s := by
  induction s generalizing p left with
  | nil =>
    obtain ⟨left, rfl⟩ := Nat.exists_eq_succ_of_ne_zero (Nat.ne_zero_of_lt hleft)
    rw [text, if_pos (holds_cons.mp h).1]
  | cons y s ih =>
    obtain ⟨left, rfl⟩ := Nat.exists_eq_succ_of_ne_zero (Nat.ne_zero_of_lt hleft)
    rw [List.mem_cons, not_or] at hnul
    obtain ⟨hp, hrest⟩ := holds_cons.mp h
    rw [text, hp, if_neg (Ne.symm hnul.1), ih hrest hnul.2 (Nat.lt_of_succ_lt_succ hleft)]

end Buffer

/-! ## The loops -/

/-- The lines among `ls` that match, with their newlines. -/
def matching (pattern : List Byte) (ls : List (List Byte)) : List Byte :=
  (ls.filter (match_ pattern)).flatMap (· ++ [nl])

theorem matching_append (pattern : List Byte) (ls ls' : List (List Byte)) :
    matching pattern (ls ++ ls') = matching pattern ls ++ matching pattern ls' := by
  unfold matching
  rw [List.filter_append, List.flatMap_append]

/-- What the inner loop leaves: the unfinished line `s'` at `p`, and the matching lines written. -/
structure Cut (pattern : List Byte) (stop : Nat) (s : List Byte) (r : Buf × Nat × List Byte) :
    Prop where
  place : r.2.1 + (unfinished nl [] s).length = stop
  holds : Holds r.1 r.2.1 (unfinished nl [] s)
  out : r.2.2 = matching pattern (lines nl [] s)

/-- **The inner loop writes the lines that end in the buffer and match**, and stops at the line that
does not end in it. -/
theorem lineLoop_cut (pattern : List Byte) (fuel : Nat) {buf : Buf} {p : Nat} {s : List Byte}
    (h : Holds buf p (s ++ [0#8])) (hnul : 0#8 ∉ s) (hstop : p + s.length < 1024)
    (hfuel : s.length < fuel) : Cut pattern (p + s.length) s (lineLoop pattern fuel buf p) := by
  induction fuel generalizing buf p s with
  | zero => exact absurd hfuel (Nat.not_lt_zero _)
  | succ fuel ih =>
    rw [lineLoop]
    by_cases hmem : nl ∈ s
    · -- the line `a` ends at `q`, and the loop goes on with `b` behind it
      obtain ⟨a, b, rfl, ha⟩ := List.eq_append_cons_of_mem hmem
      rw [List.length_append, List.length_cons] at hstop hfuel
      rw [List.append_assoc, List.cons_append] at h
      obtain ⟨hholdsa, hrest⟩ := holds_append.mp h
      obtain ⟨hq, hholdsb⟩ := holds_cons.mp hrest
      have hnula : 0#8 ∉ a := fun hx => hnul (List.mem_append_left _ hx)
      have hnulb : 0#8 ∉ b := fun hx => hnul (List.mem_append_right _ (List.mem_cons_of_mem _ hx))
      have hline : Holds buf p (a ++ [nl]) :=
        holds_append.mpr ⟨hholdsa, holds_cons.mpr ⟨hq, holds_nil⟩⟩
      rw [strchr_of_holds hline hnula ha (by omega)]
      dsimp only
      have htext : text (update buf (p + a.length) 0#8) (1024 - p) p = a := by
        refine text_of_holds (holds_append.mpr ⟨hholdsa.update (.inr le_rfl), ?_⟩) hnula (by omega)
        exact holds_cons.mpr ⟨update_self .., holds_nil⟩
      rw [htext]
      have hnext : ∀ {buf' : Buf}, Holds buf' (p + a.length + 1) (b ++ [0#8]) →
          Cut pattern (p + (a ++ nl :: b).length) b
            (lineLoop pattern fuel buf' (p + a.length + 1)) := fun {buf'} hb => by
        have hcut := ih hb hnulb (by omega) (by omega)
        have hlen : p + a.length + 1 + b.length = p + (a ++ nl :: b).length := by
          rw [List.length_append, List.length_cons]
          omega
        rwa [hlen] at hcut
      have hzero : Holds (update buf (p + a.length) 0#8) (p + a.length + 1) (b ++ [0#8]) :=
        hholdsb.update (.inl (Nat.lt_succ_self _))
      by_cases hmatch : match_ pattern a = true
      · rw [if_pos hmatch]
        have hcut := hnext (hzero.update (q := p + a.length) (x := nl) (.inl (Nat.lt_succ_self _)))
        refine ⟨?_, ?_, ?_⟩
        · rw [Lib.unfinished_line ha]
          exact hcut.place
        · rw [Lib.unfinished_line ha]
          exact hcut.holds
        rw [Lib.lines_line ha, List.nil_append]
        dsimp only
        rw [hcut.out]
        unfold matching
        rw [List.filter_cons_of_pos hmatch, List.flatMap_cons]
        congr 1
        have hback : Holds (update (update buf (p + a.length) 0#8)
            (p + a.length) nl) p (a ++ [nl]) := by
          rw [update_idem]
          exact holds_append.mpr ⟨hholdsa.update (.inr le_rfl),
            holds_cons.mpr ⟨update_self .., holds_nil⟩⟩
        have hlen : p + a.length + 1 - p = (a ++ [nl]).length := by
          rw [List.length_append, List.length_singleton]
          omega
        rw [hlen, hback.map_range']
      · rw [if_neg hmatch]
        have hcut := hnext hzero
        refine ⟨?_, ?_, ?_⟩
        · rw [Lib.unfinished_line ha]
          exact hcut.place
        · rw [Lib.unfinished_line ha]
          exact hcut.holds
        · rw [Lib.lines_line ha, List.nil_append, hcut.out]
          unfold matching
          rw [List.filter_cons_of_neg hmatch]
    · rw [strchr_of_not_mem h hmem]
      refine ⟨?_, ?_, ?_⟩
      · rw [Lib.unfinished_of_not_mem hmem, List.nil_append]
      · rw [Lib.unfinished_of_not_mem hmem, List.nil_append]
        exact (holds_append.mp h).1
      · rw [Lib.lines_of_not_mem hmem]
        rfl

/-- What `grep` does on chunks, `cur` being the unfinished line: a chunk without a newline is lost,
and the line it goes on with too. -/
def grepChunks (pattern : List Byte) : List Byte → List (List Byte) → List Byte
  | _, [] => []
  | cur, c :: chunks =>
    if nl ∈ c then
      matching pattern (lines nl cur c) ++ grepChunks pattern (unfinished nl cur c) chunks
    else grepChunks pattern [] chunks

/-- `read` can return these chunks one after the other, if `m` characters of a line are in the
buffer. -/
def Served : Nat → List (List Byte) → Prop
  | _, [] => True
  | m, c :: chunks =>
    c ≠ [] ∧ m + c.length < 1024 ∧
      Served (if nl ∈ c then (unfinished nl [] c).length else 0) chunks

variable {cur : List Byte}

/-- After a newline nothing is left of the line before it. -/
theorem unfinished_of_mem {c : List Byte} (h : nl ∈ c) :
    unfinished nl cur c = unfinished nl [] c := by
  obtain ⟨a, b, rfl, ha⟩ := List.eq_append_cons_of_mem h
  rw [Lib.unfinished_line ha, Lib.unfinished_line ha]

/-- One turn of the loop of `grep`, `cur` being in the buffer. -/
theorem grepLoop_cons (pattern : List Byte) {buf : Buf} {c : List Byte}
    (chunks : List (List Byte)) (hcur : Holds buf 0 cur) (hnl : nl ∉ cur) (hnul : 0#8 ∉ cur ++ c)
    (hc : c ≠ []) (hlen : cur.length + c.length < 1024) :
    ∃ buf' cur', cur' = (if nl ∈ c then unfinished nl cur c else []) ∧ Holds buf' 0 cur' ∧
      grepLoop pattern (c :: chunks) buf cur.length =
        (grepLoop pattern chunks buf' cur'.length).map
          (matching pattern (lines nl cur c) ++ ·) := by
  have hpos : 0 < c.length := List.length_pos_iff.mpr hc
  have hread : Holds (update (store buf cur.length c) (cur.length + c.length) 0#8) 0
      ((cur ++ c) ++ [0#8]) := by
    refine holds_append.mpr ⟨Holds.update (holds_append.mpr ⟨?_, ?_⟩) (.inr ?_), ?_⟩
    · exact hcur.congr fun i _ hi => store_of_lt (by omega)
    · rw [Nat.zero_add]
      exact holds_store
    · rw [List.length_append, Nat.zero_add]
    · rw [List.length_append, Nat.zero_add]
      exact holds_cons.mpr ⟨update_self .., holds_nil⟩
  have hcut := lineLoop_cut pattern 1024 hread hnul
    (by rw [List.length_append]; omega) (by rw [List.length_append]; omega)
  have htaken : ¬ (c.length = 0 ∨ 1024 - cur.length - 1 < c.length) := by omega
  rw [grepLoop, if_neg htaken]
  dsimp only
  generalize lineLoop pattern 1024 _ 0 = r at hcut ⊢
  obtain ⟨buf1, p, out⟩ := r
  obtain ⟨hplace, hholds, hout⟩ := hcut
  rw [Lib.unfinished_nil_append hnl, List.length_append, Nat.zero_add] at hplace
  rw [Lib.unfinished_nil_append hnl] at hholds
  rw [Lib.lines_nil_append hnl] at hout
  dsimp only at hplace hholds hout ⊢
  rw [hout]
  by_cases hmem : nl ∈ c
  · have hp : p ≠ 0 := by
      rintro rfl
      -- the unfinished line is shorter than the text, which has a newline
      have htext := congrArg List.length
        (Lib.flatMap_lines_append_unfinished nl cur c)
      obtain ⟨l, ls, -, hlines⟩ := Lib.lines_of_mem hmem
      rw [hlines cur, List.flatMap_cons] at htext
      simp only [List.length_append, List.length_singleton] at htext
      omega
    refine ⟨_, unfinished nl cur c, (if_pos hmem).symm, holds_memmove hholds, ?_⟩
    rw [if_neg hp, if_pos (by omega)]
    have hrest : cur.length + c.length - p = (unfinished nl cur c).length := by omega
    rw [hrest]
  · have hp : p = 0 := by
      rw [Lib.unfinished_of_not_mem hmem, List.length_append] at hplace
      omega
    refine ⟨buf1, [], (if_neg hmem).symm, holds_nil, ?_⟩
    rw [if_pos hp, if_neg (Nat.lt_irrefl 0), List.length_nil]

/-- **The buffer holds the unfinished line between two reads**, or nothing if the last chunk had no
newline. -/
theorem grepLoop_eq (pattern : List Byte) (chunks : List (List Byte)) {buf : Buf}
    (hcur : Holds buf 0 cur) (hnl : nl ∉ cur) (hnul : 0#8 ∉ cur ++ chunks.flatten)
    (hserved : Served cur.length chunks) :
    grepLoop pattern chunks buf cur.length = some (grepChunks pattern cur chunks) := by
  induction chunks generalizing buf cur with
  | nil => rfl
  | cons c chunks ih =>
    obtain ⟨hc, hlen, hrest⟩ := hserved
    rw [List.flatten_cons, ← List.append_assoc, List.mem_append, not_or] at hnul
    obtain ⟨buf', cur', hcur', hholds, hstep⟩ :=
      grepLoop_cons pattern chunks hcur hnl hnul.1 hc hlen
    rw [hstep, grepChunks]
    by_cases hmem : nl ∈ c
    · rw [if_pos hmem] at hcur' hrest ⊢
      rw [← unfinished_of_mem hmem] at hrest
      rw [hcur'] at hholds ⊢
      have hfree : 0#8 ∉ unfinished nl cur c ++ chunks.flatten := by
        rw [List.mem_append, not_or]
        exact ⟨fun h => hnul.1 (Lib.mem_of_mem_unfinished h), hnul.2⟩
      rw [ih hholds (Lib.not_mem_unfinished hnl) hfree hrest]
      rfl
    · rw [if_neg hmem] at hcur' hrest ⊢
      rw [hcur'] at hholds ⊢
      rw [Lib.lines_of_not_mem hmem, ih hholds List.not_mem_nil hnul.2 hrest]
      rfl

theorem served_of_grepLoop (pattern : List Byte) (chunks : List (List Byte)) {buf : Buf}
    (hcur : Holds buf 0 cur) (hnl : nl ∉ cur) (hnul : 0#8 ∉ cur ++ chunks.flatten)
    (h : grepLoop pattern chunks buf cur.length ≠ none) :
    Served cur.length chunks := by
  induction chunks generalizing buf cur with
  | nil => trivial
  | cons c chunks ih =>
    rw [List.flatten_cons, ← List.append_assoc, List.mem_append, not_or] at hnul
    by_cases htaken : c.length = 0 ∨ 1024 - cur.length - 1 < c.length
    · rw [grepLoop, if_pos htaken] at h
      exact absurd rfl h
    have hc : c ≠ [] := fun hc => htaken (.inl (by rw [hc]; rfl))
    obtain ⟨buf', cur', hcur', hholds, hstep⟩ :=
      grepLoop_cons pattern chunks hcur hnl hnul.1 hc (by omega)
    rw [hstep, ne_eq, Option.map_eq_none_iff] at h
    refine ⟨hc, by omega, ?_⟩
    by_cases hmem : nl ∈ c
    · rw [if_pos hmem] at hcur' ⊢
      rw [← unfinished_of_mem hmem, ← hcur']
      refine ih hholds (hcur' ▸ Lib.not_mem_unfinished hnl) ?_ h
      rw [List.mem_append, not_or, hcur']
      exact ⟨fun h => hnul.1 (Lib.mem_of_mem_unfinished h), hnul.2⟩
    · rw [if_neg hmem] at hcur' ⊢
      rw [hcur'] at hholds h
      exact ih hholds List.not_mem_nil hnul.2 h

/-! ## The output -/

/-- A chunk has a newline, unless none comes after it. -/
def NewlineEach : List (List Byte) → Prop
  | [] => True
  | c :: chunks => (nl ∈ chunks.flatten → nl ∈ c) ∧ NewlineEach chunks

/-- No line is cut short if each chunk has a newline. -/
theorem grepChunks_eq_matching (pattern : List Byte) {chunks : List (List Byte)}
    (h : NewlineEach chunks) (cur : List Byte) :
    grepChunks pattern cur chunks = matching pattern (lines nl cur chunks.flatten) := by
  induction chunks generalizing cur with
  | nil => rfl
  | cons c chunks ih =>
    obtain ⟨hc, hrest⟩ := h
    rw [grepChunks, List.flatten_cons, Lib.lines_append, matching_append, ih hrest, ih hrest]
    by_cases hmem : nl ∈ c
    · rw [if_pos hmem]
    · have hnone : nl ∉ chunks.flatten := fun hx => hmem (hc hx)
      rw [if_neg hmem, Lib.lines_of_not_mem hmem, Lib.lines_of_not_mem hnone,
        Lib.lines_of_not_mem hnone]
      rfl

theorem matching_nil (ls : List (List Byte)) : matching [] ls = ls.flatMap (· ++ [nl]) := by
  have hall : ∀ l ∈ ls, match_ [] l = true := fun l _ => by
    cases l with
    | nil => rfl
    | cons x l => rfl
  unfold matching
  rw [List.filter_eq_self.mpr hall]

theorem matching_cur_lt {s : List Byte} (hcur : cur ≠ []) (h : nl ∈ s) :
    (matching [] (lines nl [] s)).length < (matching [] (lines nl cur s)).length := by
  obtain ⟨l, ls, hnil, hlines⟩ := Lib.lines_of_mem h
  have hpos := List.length_pos_iff.mpr hcur
  rw [matching_nil, matching_nil, hnil, hlines cur, List.flatMap_cons, List.flatMap_cons]
  simp only [List.length_append]
  omega

theorem grepChunks_nil_length (chunks : List (List Byte)) (hne : ∀ c ∈ chunks, c ≠ [])
    (cur : List Byte) :
    (grepChunks [] cur chunks).length ≤ (matching [] (lines nl cur chunks.flatten)).length ∧
      ((grepChunks [] cur chunks).length = (matching [] (lines nl cur chunks.flatten)).length →
        NewlineEach chunks) := by
  induction chunks generalizing cur with
  | nil => exact ⟨le_rfl, fun _ => trivial⟩
  | cons c chunks ih =>
    obtain ⟨hc, hne⟩ := List.forall_mem_cons.mp hne
    rw [grepChunks, List.flatten_cons, Lib.lines_append, matching_append]
    by_cases hmem : nl ∈ c
    · obtain ⟨hle, heq⟩ := ih hne (unfinished nl cur c)
      rw [if_pos hmem, List.length_append, List.length_append]
      exact ⟨by omega, fun h => ⟨fun _ => hmem, heq (by omega)⟩⟩
    obtain ⟨hle, heq⟩ := ih hne []
    have hnil : matching [] [] = [] := rfl
    rw [if_neg hmem, Lib.lines_of_not_mem hmem, Lib.unfinished_of_not_mem hmem, hnil,
      List.nil_append]
    by_cases hlater : nl ∈ chunks.flatten
    · have hne : cur ++ c ≠ [] := fun h => hc (List.append_eq_nil_iff.mp h).2
      have hlt := matching_cur_lt hne hlater
      exact ⟨by omega, fun h => by omega⟩
    · rw [Lib.lines_of_not_mem hlater] at hle heq ⊢
      exact ⟨hle, fun h => ⟨fun hx => absurd hx hlater, heq h⟩⟩

theorem Served.ne_nil {m : Nat} {chunks : List (List Byte)} (h : Served m chunks) :
    ∀ c ∈ chunks, c ≠ [] := by
  induction chunks generalizing m with
  | nil => exact fun c hc => absurd hc List.not_mem_nil
  | cons c chunks ih => exact List.forall_mem_cons.mpr ⟨h.1, ih h.2.2⟩

/-- **`grep` prints the matching lines of its input if and only if the reads cut it so that a chunk
without a newline comes only after the last newline**, for every input without NUL and all chunks
that `read` can return. -/
theorem grep_matching_iff (buf : Buf) (chunks : List (List Byte))
    (hread : ∀ pattern, grep pattern buf chunks ≠ none) (hnul : 0#8 ∉ chunks.flatten) :
    (∀ pattern, grep pattern buf chunks =
        some (matching pattern (lines nl [] chunks.flatten))) ↔ NewlineEach chunks := by
  have hserved : Served 0 chunks :=
    served_of_grepLoop [] chunks holds_nil List.not_mem_nil hnul (hread [])
  have heq : ∀ pattern, grep pattern buf chunks = some (grepChunks pattern [] chunks) :=
    fun pattern => grepLoop_eq pattern chunks holds_nil List.not_mem_nil hnul hserved
  constructor
  · intro h
    have hall := (heq []).symm.trans (h [])
    exact (grepChunks_nil_length chunks hserved.ne_nil []).2
      (congrArg List.length (Option.some.inj hall))
  · intro h pattern
    rw [heq, grepChunks_eq_matching pattern h]

/-- Two lines in one chunk, and a character after the last newline in another. -/
theorem grep_matching_iff_two :
    NewlineEach [[97#8, nl, 98#8, nl], [98#8]] ∧
      ∀ pattern, grep pattern (fun _ => 0#8) [[97#8, nl, 98#8, nl], [98#8]] =
        some (matching pattern [[97#8], [98#8]]) := by
  have hserved : Served 0 [[97#8, nl, 98#8, nl], [98#8]] :=
    ⟨by decide, by decide, by decide, by decide, trivial⟩
  have heach : NewlineEach [[97#8, nl, 98#8, nl], [98#8]] := ⟨by decide, by decide, trivial⟩
  refine ⟨heach, (grep_matching_iff (fun _ => 0#8) _ (fun pattern hnone => ?_) (by decide)).mpr
    heach⟩
  rw [grep, show (0 : Nat) = ([] : List Byte).length from rfl,
    grepLoop_eq pattern _ holds_nil List.not_mem_nil (by decide) hserved] at hnone
  cases hnone

/-- The first character of a line comes alone, and is lost. -/
theorem grep_loses_partial_line :
    grep [] (fun _ => 0#8) [[97#8], [nl]] = some [nl] ∧
      matching [] (lines nl [] [97#8, nl]) = [97#8, nl] := by
  refine ⟨?_, rfl⟩
  have hserved : Served 0 [[97#8], [nl]] := ⟨by decide, by decide, by decide, by decide, trivial⟩
  exact grepLoop_eq [] _ holds_nil List.not_mem_nil (by decide) hserved

end Xv6Mmap.Grep
