import Mathlib.Computability.Language
import Xv6Mmap.Grep

/-!
# What `match` matches (`grep.c:72-106`)

`Grep.match_` has the three functions of the matcher on lists. Here they are on memory, with a
`char *` as an address and `fuel` for the calls and the turns of the loops, and next to them what a
pattern means: a product of languages. `^` and `$` are whether anything may stand before or behind.

* `matchhereAt_eq`, `matchstarAt_eq`: on strings that end, the functions return, with what those on
  lists return.
* **`match_sound_complete`**: `match` returns, and returns true exactly if the text is in the language
  of the pattern.
-/

namespace Xv6Mmap.Grep

open Computability

/-! ## The meaning of a pattern -/

/-- One character that `c` stands for. -/
def single (c : Byte) : Language Byte := {w | ∃ x, w = [x] ∧ (c = dot ∨ c = x)}

/-- A piece of a pattern: a character, or a character with a `*`. -/
inductive Item where
  | one (c : Byte)
  | star (c : Byte)

/-- What an item matches. -/
def Item.lang : Item → Language Byte
  | one c => single c
  | star c => (single c)∗

/-- The items of a pattern behind its `^`, read from the left, and whether a `$` ends it. -/
def items : List Byte → List Item × Bool
  | [] => ([], false)
  | [c] => if c = dollar then ([], true) else ([.one c], false)
  | c :: d :: re =>
    if d = star then (.star c :: (items re).1, (items re).2)
    else (.one c :: (items (d :: re)).1, (items (d :: re)).2)

/-- The empty string if there is an anchor, and otherwise any. -/
def anchor (anchored : Bool) : Language Byte := if anchored then 1 else ⊤

/-- The texts that begin with a match of the pattern, which has no `^`. -/
def langHere (re : List Byte) : Language Byte :=
  ((items re).1.map Item.lang).prod * anchor (items re).2

/-- The texts with a match of the pattern. -/
def lang (re : List Byte) : Language Byte :=
  match re with
  | [] => anchor false * langHere []
  | c :: tail =>
    if c = caret then anchor true * langHere tail else anchor false * langHere (c :: tail)

/-! ## On lists -/

variable {c : Byte} {l : Language Byte}

theorem cons_mem_single_mul {x : Byte} {text : List Byte} :
    x :: text ∈ single c * l ↔ (c = dot ∨ c = x) ∧ text ∈ l := by
  rw [Language.mem_mul]
  constructor
  · rintro ⟨_, ⟨y, rfl, hy⟩, t, ht, he⟩
    cases he
    exact ⟨hy, ht⟩
  · rintro ⟨hx, ht⟩
    exact ⟨[x], ⟨x, rfl, hx⟩, text, ht, rfl⟩

theorem nil_notMem_single_mul : [] ∉ single c * l := by
  rw [Language.mem_mul]
  rintro ⟨_, ⟨y, rfl, -⟩, t, -, he⟩
  cases he

theorem star_mul (c : Byte) (l : Language Byte) :
    (single c)∗ * l = l + single c * ((single c)∗ * l) := by
  nth_rewrite 1 [← Language.one_add_self_mul_kstar_eq_kstar]
  rw [add_mul, one_mul, mul_assoc]

/-- The search of `matchstar` over the ways to split the text is the star of languages. -/
theorem matchstar_iff {here : List Byte → Bool} (h : ∀ t, here t = true ↔ t ∈ l) (c : Byte)
    (text : List Byte) :
    matchstar here c text = true ↔ text ∈ (single c)∗ * l := by
  induction text with
  | nil =>
    rw [matchstar, h, star_mul, Language.mem_add]
    exact (or_iff_left nil_notMem_single_mul).symm
  | cons x text ih =>
    rw [matchstar, star_mul, Language.mem_add, cons_mem_single_mul, ← ih, Bool.or_eq_true, h,
      Bool.and_eq_true, Bool.or_eq_true, beq_iff_eq, beq_iff_eq, or_comm (a := x = c),
      eq_comm (a := x)]

/-- The character `c`, with the pattern `re` behind it, is neither starred nor an end mark. -/
def Plain (c : Byte) (re : List Byte) : Prop := (∀ re', re ≠ star :: re') ∧ ¬ (c = dollar ∧ re = [])

theorem pattern_induction {motive : List Byte → Prop} (nil : motive [])
    (star : ∀ c re, motive re → motive (c :: star :: re)) (dollar : motive [dollar])
    (one : ∀ c re, Plain c re → motive re → motive (c :: re)) : ∀ re, motive re
  | [] => nil
  | [c] => by
    by_cases hc : c = Grep.dollar
    · rwa [hc]
    · exact one c [] ⟨nofun, fun h => hc h.1⟩ nil
  | c :: d :: re => by
    by_cases hd : d = Grep.star
    · rw [hd]
      exact star c re (pattern_induction nil star dollar one re)
    · exact one c _ ⟨fun _ he => hd (List.cons.inj he).1, nofun⟩
        (pattern_induction nil star dollar one (d :: re))

theorem matchhere_star (c : Byte) (re text : List Byte) :
    matchhere (c :: star :: re) text = matchstar (matchhere re) c text := by
  cases text <;> simp [matchhere]

theorem matchhere_dollar (text : List Byte) : matchhere [dollar] text = text.isEmpty := by
  cases text <;> simp [matchhere]

theorem matchhere_one {re : List Byte} (h : Plain c re) :
    matchhere (c :: re) [] = false ∧
      ∀ x text, matchhere (c :: re) (x :: text) = ((c == dot || c == x) && matchhere re text) := by
  match re, h with
  | [], h =>
    have hc : c ≠ dollar := fun hc => h.2 ⟨hc, rfl⟩
    simp [matchhere, hc]
  | d :: re, h =>
    have hd : d ≠ star := fun hd => h.1 re (by rw [hd])
    simp [matchhere, hd]

theorem langHere_star (c : Byte) (re : List Byte) :
    langHere (c :: star :: re) = (single c)∗ * langHere re := by
  simp [langHere, items, Item.lang, mul_assoc]

theorem langHere_one {re : List Byte} (h : Plain c re) :
    langHere (c :: re) = single c * langHere re := by
  match re, h with
  | [], h =>
    have hc : c ≠ dollar := fun hc => h.2 ⟨hc, rfl⟩
    simp [langHere, items, hc, Item.lang]
  | d :: re, h =>
    have hd : d ≠ star := fun hd => h.1 re (by rw [hd])
    simp [langHere, items, hd, Item.lang, mul_assoc]

theorem matchhere_iff (re : List Byte) : ∀ text, matchhere re text = true ↔ text ∈ langHere re := by
  induction re using pattern_induction with
  | nil =>
    intro text
    rw [matchhere, langHere]
    exact iff_of_true rfl (Language.mem_mul.mpr ⟨[], rfl, text, trivial, rfl⟩)
  | star c re ih =>
    intro text
    rw [matchhere_star, langHere_star]
    exact matchstar_iff ih c text
  | dollar =>
    intro text
    have hend : langHere [dollar] = 1 := by simp [langHere, items, anchor]
    rw [matchhere_dollar, hend, List.isEmpty_iff, Language.mem_one]
  | one c re hplain ih =>
    intro text
    rw [langHere_one hplain]
    cases text with
    | nil =>
      rw [(matchhere_one hplain).1]
      exact iff_of_false nofun nil_notMem_single_mul
    | cons x text =>
      rw [(matchhere_one hplain).2, cons_mem_single_mul, Bool.and_eq_true, Bool.or_eq_true,
        beq_iff_eq, beq_iff_eq, ih]

theorem matchFrom_iff (re text : List Byte) :
    matchFrom re text = true ↔ text ∈ anchor false * langHere re := by
  have hsuffix : ∀ t, t ∈ anchor false * langHere re ↔ ∃ pre u, u ∈ langHere re ∧ pre ++ u = t := by
    intro t
    rw [Language.mem_mul]
    exact ⟨fun ⟨pre, _, u, hu⟩ => ⟨pre, u, hu⟩, fun ⟨pre, u, hu⟩ => ⟨pre, trivial, u, hu⟩⟩
  induction text with
  | nil =>
    rw [matchFrom, matchhere_iff, hsuffix]
    refine ⟨fun h => ⟨[], [], h, rfl⟩, ?_⟩
    rintro ⟨pre, u, hu, he⟩
    rwa [(List.append_eq_nil_iff.mp he).2] at hu
  | cons x text ih =>
    have hrest := ih.trans (hsuffix text)
    rw [matchFrom, Bool.or_eq_true, matchhere_iff, hrest, hsuffix]
    constructor
    · rintro (h | ⟨pre, u, hu, rfl⟩)
      · exact ⟨[], _, h, rfl⟩
      · exact ⟨x :: pre, u, hu, rfl⟩
    · rintro ⟨pre, u, hu, he⟩
      cases pre with
      | nil => exact .inl (by rwa [← he])
      | cons y pre =>
        obtain ⟨-, rfl⟩ := List.cons.inj he
        exact .inr ⟨pre, u, hu, rfl⟩

theorem match_iff (re text : List Byte) : match_ re text = true ↔ text ∈ lang re := by
  cases re with
  | nil => exact matchFrom_iff [] text
  | cons c tail =>
    rw [match_, lang]
    split
    · rw [matchhere_iff, anchor, if_pos rfl, one_mul]
    · exact matchFrom_iff _ text

/-! ## On memory -/

mutual

/-- `matchhere(re, text)`. -/
def matchhereAt (m : Word → Byte) : Nat → Word → Word → Option Bool
  | 0, _, _ => none
  | fuel + 1, re, text =>
    if m re = 0#8 then some true
    else if m (re + 1) = star then matchstarAt m fuel (m re) (re + 2) text
    else if m re = dollar ∧ m (re + 1) = 0#8 then some (m text == 0#8)
    else if m text ≠ 0#8 ∧ (m re = dot ∨ m re = m text) then matchhereAt m fuel (re + 1) (text + 1)
    else some false

/-- `matchstar(c, re, text)`. -/
def matchstarAt (m : Word → Byte) : Nat → Byte → Word → Word → Option Bool
  | 0, _, _, _ => none
  | fuel + 1, c, re, text =>
    match matchhereAt m fuel re text with
    | none => none
    | some true => some true
    | some false =>
      if m text ≠ 0#8 ∧ (m text = c ∨ c = dot) then matchstarAt m fuel c re (text + 1)
      else some false

end

/-- The loop of `match`. -/
def matchLoop (m : Word → Byte) (re : Word) : Nat → Word → Option Bool
  | 0, _ => none
  | fuel + 1, text =>
    match matchhereAt m fuel re text with
    | none => none
    | some true => some true
    | some false => if m text ≠ 0#8 then matchLoop m re fuel (text + 1) else some false

/-- `match(re, text)`. -/
def matchAt (m : Word → Byte) (fuel : Nat) (re text : Word) : Option Bool :=
  if m re = caret then matchhereAt m fuel (re + 1) text else matchLoop m re fuel text

/-- The string `s`, with a NUL behind it, is at `p`. -/
def CStr (m : Word → Byte) : Word → List Byte → Prop
  | p, [] => m p = 0#8
  | p, c :: s => m p = c ∧ c ≠ 0#8 ∧ CStr m (p + 1) s

variable {m : Word → Byte} {re text : Word} {s t : List Byte} {fuel : Nat}

theorem CStr.eq_zero_iff (h : CStr m text t) : m text = 0#8 ↔ t = [] := by
  cases t with
  | nil => exact iff_of_true h rfl
  | cons x t => exact iff_of_false (fun h0 => h.2.1 (h.1.symm.trans h0)) nofun

theorem matchstarAt_eq (c : Byte) {n : Nat}
    (hhere : ∀ {fuel text t}, CStr m text t → n + t.length + 1 ≤ fuel →
      matchhereAt m fuel re text = some (matchhere s t)) :
    ∀ {fuel text} t, CStr m text t → n + t.length + 2 ≤ fuel →
      matchstarAt m fuel c re text = some (matchstar (matchhere s) c t)
  | fuel + 1, text, t, ht, hf => by
    rw [matchstarAt, hhere ht (by omega)]
    cases t with
    | nil =>
      rw [matchstar]
      cases matchhere s [] with
      | true => rfl
      | false => exact if_neg fun h => h.1 ht
    | cons x t =>
      obtain ⟨hx, hne, ht⟩ := ht
      rw [matchstar, hx]
      cases matchhere s (x :: t) with
      | true => rfl
      | false =>
        have htest : ((x == c || c == dot) = true) ↔ x ≠ 0#8 ∧ (x = c ∨ c = dot) := by
          simp [hne]
        rw [List.length_cons] at hf
        simp only [Bool.false_or, ← htest]
        split
        case isTrue h => rw [matchstarAt_eq c hhere t ht (by omega), h, Bool.true_and]
        case isFalse h => rw [Bool.eq_false_iff.mpr h, Bool.false_and]

theorem matchhereAt_eq (s : List Byte) : ∀ {fuel re text t}, CStr m re s → CStr m text t →
    s.length + t.length + 1 ≤ fuel → matchhereAt m fuel re text = some (matchhere s t) := by
  induction s using pattern_induction with
  | nil =>
    intro fuel re text t hs _ hf
    obtain ⟨fuel, rfl⟩ : ∃ k, fuel = k + 1 := ⟨fuel - 1, by omega⟩
    rw [matchhereAt, if_pos (by exact hs), matchhere]
  | star c s ih =>
    intro fuel re text t hs ht hf
    obtain ⟨fuel, rfl⟩ : ∃ k, fuel = k + 1 := ⟨fuel - 1, by omega⟩
    obtain ⟨hc, hne, hstar, -, hs⟩ := hs
    rw [matchhereAt, hc, if_neg hne, if_pos hstar, matchhere_star,
      show re + 2 = re + 1 + 1 by rw [BitVec.add_assoc]; rfl]
    exact matchstarAt_eq c (ih hs) t ht (by simp only [List.length_cons] at hf; omega)
  | dollar =>
    intro fuel re text t hs ht hf
    obtain ⟨fuel, rfl⟩ : ∃ k, fuel = k + 1 := ⟨fuel - 1, by omega⟩
    obtain ⟨hc, hne, h0⟩ := hs
    change m (re + 1) = 0#8 at h0
    rw [matchhereAt, hc, h0, if_neg hne, if_neg (by decide), if_pos ⟨rfl, rfl⟩, matchhere_dollar]
    congr 1
    rw [Bool.eq_iff_iff, beq_iff_eq, List.isEmpty_iff]
    exact ht.eq_zero_iff
  | one c s hplain ih =>
    intro fuel re text t hs ht hf
    obtain ⟨fuel, rfl⟩ : ∃ k, fuel = k + 1 := ⟨fuel - 1, by omega⟩
    obtain ⟨hc, hne, hs⟩ := hs
    have hstar : m (re + 1) ≠ star := by
      intro hst
      cases s with
      | nil => exact absurd (hs.symm.trans hst) (by decide)
      | cons d s => exact hplain.1 s (by rw [← hs.1, hst])
    have hdollar : ¬ (c = dollar ∧ m (re + 1) = 0#8) := fun h =>
      hplain.2 ⟨h.1, hs.eq_zero_iff.mp h.2⟩
    rw [matchhereAt, hc, if_neg hne, if_neg hstar, if_neg hdollar]
    cases t with
    | nil => rw [(matchhere_one hplain).1, if_neg fun h => h.1 ht]
    | cons x t =>
      obtain ⟨hx, hx0, ht⟩ := ht
      rw [(matchhere_one hplain).2, hx]
      have htest : ((c == dot || c == x) = true) ↔ x ≠ 0#8 ∧ (c = dot ∨ c = x) := by
        simp [hx0]
      simp only [List.length_cons] at hf
      simp only [← htest]
      split
      case isTrue h => rw [ih hs ht (by omega), h, Bool.true_and]
      case isFalse h => rw [Bool.eq_false_iff.mpr h, Bool.false_and]

theorem matchLoop_eq (hs : CStr m re s) : ∀ {fuel text} t, CStr m text t →
    s.length + t.length + 2 ≤ fuel → matchLoop m re fuel text = some (matchFrom s t)
  | fuel + 1, text, t, ht, hf => by
    rw [matchLoop, matchhereAt_eq s hs ht (by omega)]
    cases t with
    | nil =>
      rw [matchFrom]
      cases matchhere s [] with
      | true => rfl
      | false => exact if_neg fun h => h ht
    | cons x t =>
      rw [matchFrom]
      cases matchhere s (x :: t) with
      | true => rfl
      | false =>
        rw [List.length_cons] at hf
        simp only [Bool.false_or]
        rw [if_pos (mt ht.eq_zero_iff.mp nofun), matchLoop_eq hs t ht.2.2 (by omega)]

theorem matchAt_eq (hs : CStr m re s) (ht : CStr m text t) (hf : s.length + t.length + 2 ≤ fuel) :
    matchAt m fuel re text = some (match_ s t) := by
  unfold matchAt
  cases s with
  | nil =>
    rw [if_neg (by rw [show m re = 0#8 from hs]; decide), match_]
    exact matchLoop_eq hs t ht hf
  | cons c s =>
    rw [match_, hs.1]
    split
    · exact matchhereAt_eq s hs.2.2 ht (by simp only [List.length_cons] at hf; omega)
    · exact matchLoop_eq hs t ht hf

/-- **The matcher is sound and complete**: on strings that end its functions return, and `match`
returns true if and only if the text has a match. -/
theorem match_sound_complete (m : Word → Byte) (re text : Word) (s t : List Byte) (c : Byte)
    (hs : CStr m re s) (ht : CStr m text t) :
    ∃ bound, ∀ fuel ≥ bound,
      (matchhereAt m fuel re text).isSome = true ∧ (matchstarAt m fuel c re text).isSome = true ∧
        ∃ b, matchAt m fuel re text = some b ∧ (b = true ↔ t ∈ lang s) := by
  refine ⟨s.length + t.length + 2, fun fuel hf => ⟨?_, ?_, match_ s t, matchAt_eq hs ht hf,
    match_iff s t⟩⟩
  · rw [matchhereAt_eq s hs ht (by omega), Option.isSome_some]
  · rw [matchstarAt_eq c (matchhereAt_eq s hs) t ht hf, Option.isSome_some]

/-- `a*$` in `ba`. -/
theorem match_sound_complete_star :
    let m : Word → Byte := fun p => [97#8, star, dollar, 0#8, 98#8, 97#8].getD p.toNat 0#8
    CStr m 0#32 [97#8, star, dollar] ∧ CStr m 4#32 [98#8, 97#8] ∧
      [98#8, 97#8] ∈ lang [97#8, star, dollar] := by
  intro m
  have hre : CStr m 0#32 [97#8, star, dollar] := ⟨rfl, nofun, rfl, nofun, rfl, nofun, rfl⟩
  have htext : CStr m 4#32 [98#8, 97#8] := ⟨rfl, nofun, rfl, nofun, rfl⟩
  obtain ⟨bound, h⟩ := match_sound_complete m 0#32 4#32 _ _ dot hre htext
  obtain ⟨-, -, b, hb, hiff⟩ := h (bound + 7) (by omega)
  rw [matchAt_eq hre htext (by simp)] at hb
  exact ⟨hre, htext, hiff.mp ((Option.some.inj hb).symm.trans (by decide))⟩

end Xv6Mmap.Grep
