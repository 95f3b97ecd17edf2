import Xv6Mmap.FsBlocks
import Xv6Mmap.SysFile
import Xv6Mmap.Lib.Traced
import Xv6Mmap.Transactions

/-!
# The blocks a write logs (`fs.c:41-78, 198-213, 372-400, 481-511`)

`writei` and what it calls, with the blocks they pass to `log_write` recorded, up to a panic if there
is one: the bitmap block and the new block in `balloc`, the indirect block in `bmap`, the data block
of each turn and the block of the inode. Without the record they are the functions of `Fs`
(`writeiLog_val`).

A turn of the loop costs two blocks, the data block and its bitmap block. The indirect block and its
bitmap block come once (`pending`). So a write of three aligned blocks logs at most eight blocks, and
the block of the inode. If the write is not aligned, there is one turn more, on a block that the
file has already.

* **`writei_log_quota`**: a write of `filewrite`'s size stays within `MAXOPBLOCKS`.
* `writei_exceeds_quota`: not so if block 0 is free, since `addrs[NDIRECT] == 0` then does not mean
  that there is no indirect block.
-/

namespace Xv6Mmap.Fs

open Lib (Traced)
open Function (update update_self update_of_ne update_idem)

/-- Computations that record the blocks passed to `log_write`. -/
abbrev LogM := Traced Nat Halt

/-- `log_write(bp)` for the buffer of block `b`. -/
def logWrite (b : Nat) : LogM Unit := Traced.use b

/-- Where the superblock says that the inodes and the bitmap are. -/
structure Layout where
  inodestart : Nat
  bmapstart : Nat

/-- `BBLOCK(b, sb)`. -/
def Layout.bblock (lay : Layout) (b : Nat) : Nat := b / 4096 + lay.bmapstart

/-- `IBLOCK(i, sb)`. -/
def Layout.iblock (lay : Layout) (i : Nat) : Nat := i / 8 + lay.inodestart

section Logged

variable (lay : Layout) (sb : Superblock)

/-- `balloc(dev)`; the second `log_write` is that of `bzero`. -/
def ballocLog (v : Vol) : LogM (Nat × Vol) := do
  let r ← Traced.lift (balloc sb v)
  logWrite (lay.bblock r.1)
  logWrite r.1
  return r

def ensureAddrLog (v : Vol) (d : Dinode) (k : Nat) : LogM (Nat × Vol × Dinode) :=
  if d.addrs k = 0 then do
    let (b, v) ← ballocLog lay sb v
    return (b, v, d.setAddr k b)
  else return (d.addrs k, v, d)

/-- `bmap(ip, bn)`. -/
def bmapLog (v : Vol) (d : Dinode) (bn : Nat) : LogM (Nat × Vol × Dinode) :=
  if bn < ndirect then ensureAddrLog lay sb v d bn
  else if bn - ndirect < nindirect then do
    let (addr, v, d) ← ensureAddrLog lay sb v d ndirect
    if wordAt (v.data addr) (bn - ndirect) = 0 then do
      let (b, v) ← ballocLog lay sb v
      let a := setWord (v.data addr) (bn - ndirect) b
      logWrite addr
      return (b, { v with data := update v.data addr a }, d)
    else return (wordAt (v.data addr) (bn - ndirect), v, d)
  else Traced.lift (throw (.panic "bmap: out of range"))

/-- The loop of `writei`. -/
def writeLoopLog : Nat → Vol → Dinode → Nat → List Byte → LogM (Vol × Dinode)
  | 0, v, d, _, _ => return (v, d)
  | fuel + 1, v, d, off, src =>
    if src = [] then return (v, d)
    else do
      let (b, v, d) ← bmapLog lay sb v d (off / bsize)
      let m := min src.length (bsize - off % bsize)
      let x := overwrite (v.data b) (off % bsize) (src.take m)
      logWrite b
      writeLoopLog fuel { v with data := update v.data b x } d (off + m) (src.drop m)

/-- `writei(ip, src, off, n)`. -/
def writeiLog (ip : Fin ninode) (off : Nat) (src : List Byte) (s : State) : LogM (Int × State) :=
  let x := s.inode ip
  if x.copy.type = some .dev then
    if x.copy.major = console then return (src.length, s) else return (-1, s)
  else if x.copy.size < off ∨ 2 ^ 32 ≤ off + src.length then return (-1, s)
  else if maxfile * bsize < off + src.length then return (-1, s)
  else do
    let (v, d) ← writeLoopLog lay s.sb src.length s.vol x.copy off src
    let s := { s with vol := v, inode := update s.inode ip { x with copy := d } }
    if 0 < src.length ∧ d.size < off + src.length then do
      let d := { d with size := off + src.length }
      logWrite (lay.iblock x.inum)
      return (src.length, { s with
        inode := update s.inode ip { x with copy := d }
        dinode := update s.dinode x.inum d })
    else return (src.length, s)

end Logged

/-! ## Without the record -/

section Erasure

variable (lay : Layout) (sb : Superblock)

theorem ballocLog_val (v : Vol) : (ballocLog lay sb v).val = balloc sb v := by
  unfold ballocLog
  rw [Traced.val_bind, Traced.val_lift]
  cases balloc sb v with
  | error e => rfl
  | ok r => rfl

theorem ensureAddrLog_val (v : Vol) (d : Dinode) (k : Nat) :
    (ensureAddrLog lay sb v d k).val = ensureAddr sb v d k := by
  unfold ensureAddrLog ensureAddr
  split
  · rw [Traced.val_bind, ballocLog_val]
    cases balloc sb v with
    | error e => rfl
    | ok r => rfl
  · rfl

theorem bmapLog_val (v : Vol) (d : Dinode) (bn : Nat) :
    (bmapLog lay sb v d bn).val = bmap sb v d bn := by
  unfold bmapLog bmap
  split
  · exact ensureAddrLog_val lay sb v d bn
  split
  · rw [Traced.val_bind, ensureAddrLog_val]
    cases ensureAddr sb v d ndirect with
    | error e => rfl
    | ok r =>
      obtain ⟨addr, v, d⟩ := r
      show (if wordAt (v.data addr) (bn - ndirect) = 0 then _ else _ : LogM _).val
        = if wordAt (v.data addr) (bn - ndirect) = 0 then _ else _
      split
      · rw [Traced.val_bind, ballocLog_val]
        cases balloc sb v with
        | error e => rfl
        | ok r => rfl
      · rfl
  · rfl

theorem writeLoopLog_val (fuel : Nat) (v : Vol) (d : Dinode) (off : Nat) (src : List Byte) :
    (writeLoopLog lay sb fuel v d off src).val = writeLoop sb fuel v d off src := by
  induction fuel generalizing v d off src with
  | zero => rfl
  | succ fuel ih =>
    rw [writeLoopLog, writeLoop]
    split
    · rfl
    · rw [Traced.val_bind, bmapLog_val]
      cases bmap sb v d (off / bsize) with
      | error e => rfl
      | ok r => exact ih ..

/-- **The record changes nothing.** -/
theorem writeiLog_val (ip : Fin ninode) (off : Nat) (src : List Byte) (s : State) :
    (writeiLog lay ip off src s).val = writei ip off src s := by
  unfold writeiLog writei
  rw [Lib.stateT_bind]
  dsimp only [get, getThe, MonadStateOf.get, StateT.get, pure, Except.pure]
  split
  · split <;> rfl
  split
  · rfl
  · split
    · rfl
    · rw [Traced.val_bind, writeLoopLog_val, Lib.stateT_bind]
      cases writeLoop s.sb src.length s.vol (s.inode ip).copy off src with
      | error e => rfl
      | ok r =>
        obtain ⟨v, d⟩ := r
        have hlift : (liftM (.ok (v, d) : Except Halt (Vol × Dinode)) : FsM _) s = .ok ((v, d), s) :=
          rfl
        rw [hlift]
        unfold when
        by_cases hgrown : 0 < src.length ∧ d.size < off + src.length
        · simp only [if_pos hgrown]
          show Except.ok _ = Except.ok _
          simp only [update_self, update_idem]
        · simp only [if_neg hgrown]
          rfl

end Erasure

/-! ## What a turn costs -/

/-- The blocks still to be logged for an indirect block: itself and its bitmap block. -/
def pending (d : Dinode) : Nat := if d.addrs ndirect = 0 then 2 else 0

/-- The indirect block, if there is one. -/
def indirect (d : Dinode) : Finset Nat := if d.addrs ndirect = 0 then ∅ else {d.addrs ndirect}

theorem card_indirect_add_pending (d : Dinode) : (indirect d).card + pending d ≤ 2 := by
  unfold indirect pending
  split
  · exact le_rfl
  · exact Nat.le_succ 1

/-- What a step of a write that has `d` as its inode logs, besides the indirect block: the blocks of
`S`, and `b` if it maps it. -/
inductive Costs (d : Dinode) : LogM (Nat × Vol × Dinode) → Prop where
  | fails {l : List Nat} {e : Halt} (S : Finset Nat) (hcard : S.card ≤ pending d)
      (hl : ∀ c ∈ l, c ∈ S ∪ indirect d) : Costs d ⟨l, .error e⟩
  | maps {l : List Nat} {b : Nat} {v' : Vol} {d' : Dinode} (S : Finset Nat)
      (hboot : v'.bit 0 = true) (hcard : S.card + pending d' ≤ 1 + pending d)
      (hl : ∀ c ∈ l, c ∈ insert b S ∪ indirect d) (hind : indirect d' ⊆ S ∪ indirect d) :
      Costs d ⟨l, .ok (b, v', d')⟩

section Cost

variable (lay : Layout) {sb : Superblock} {v : Vol} {d : Dinode}

/-- `balloc` fails and logs nothing, or logs two blocks; it does not return block 0. -/
theorem ballocLog_cases (hboot : v.bit 0 = true) :
    (∃ e, ballocLog lay sb v = ⟨[], .error e⟩) ∨
      ∃ b v', b ≠ 0 ∧ v'.bit 0 = true ∧
        ballocLog lay sb v = ⟨[lay.bblock b, b], .ok (b, v')⟩ := by
  have hspec := balloc_spec sb v
  unfold ballocLog
  cases hb : balloc sb v with
  | error e => exact .inl ⟨e, rfl⟩
  | ok r =>
    rw [hb] at hspec
    obtain ⟨b, hfree, -, rfl⟩ := hspec
    have hb0 : b ≠ 0 := by
      rintro rfl
      rw [hboot] at hfree
      cases hfree
    exact .inr ⟨b, _, hb0, (update_of_ne hb0.symm ..).trans hboot, rfl⟩

theorem indirect_setAddr_direct {k b : Nat} (hk : k < ndirect) :
    indirect (d.setAddr k b) = indirect d ∧ pending (d.setAddr k b) = pending d := by
  unfold indirect pending
  rw [setAddr_of_ne d b hk.ne']
  exact ⟨rfl, rfl⟩

theorem indirect_setAddr_ndirect {b : Nat} (hb : b ≠ 0) :
    indirect (d.setAddr ndirect b) = {b} ∧ pending (d.setAddr ndirect b) = 0 := by
  unfold indirect pending
  rw [setAddr_self, if_neg hb, if_neg hb]
  exact ⟨rfl, rfl⟩

/-- A block of the indirect block at `addr`, which is there. -/
theorem costs_indirect (hboot : v.bit 0 = true) {addr m : Nat} (haddr : addr ∈ indirect d) :
    Costs d (if wordAt (v.data addr) m = 0 then do
        let (b, v) ← ballocLog lay sb v
        let a := setWord (v.data addr) m b
        logWrite addr
        return (b, { v with data := update v.data addr a }, d)
      else return (wordAt (v.data addr) m, v, d)) := by
  split
  · rcases ballocLog_cases lay hboot with ⟨e, hb⟩ | ⟨b, v', hb0, hboot', hb⟩
    · rw [hb]
      exact .fails ∅ (Nat.zero_le _) fun c hc => absurd hc List.not_mem_nil
    · rw [hb]
      refine .maps {lay.bblock b} hboot' le_rfl (fun c hc => ?_) Finset.subset_union_right
      have hc : c ∈ [lay.bblock b, b, addr] := hc
      simp only [List.mem_cons, List.not_mem_nil, or_false] at hc
      rcases hc with rfl | rfl | rfl
      · simp
      · simp
      · exact Finset.mem_union_right _ haddr
  · exact .maps ∅ hboot (by simp) (fun c hc => absurd hc List.not_mem_nil)
      Finset.subset_union_right

theorem Costs.of_fresh {i : Nat} {x : LogM (Nat × Vol × Dinode)} (hzero : d.addrs ndirect = 0)
    (hi : i ≠ 0) (h : Costs (d.setAddr ndirect i) x) :
    Costs d ⟨[lay.bblock i, i] ++ x.used, x.val⟩ := by
  obtain ⟨hind, hpend'⟩ := indirect_setAddr_ndirect (d := d) hi
  have hpend : pending d = 2 := if_pos hzero
  have hcard2 : ∀ S : Finset Nat, (insert (lay.bblock i) (insert i S)).card ≤ S.card + 2 :=
    fun S => (Finset.card_insert_le _ _).trans (Nat.succ_le_succ (Finset.card_insert_le _ _))
  cases h with
  | fails S hcard hl =>
    rw [hpend'] at hcard
    rw [hind] at hl
    refine .fails (insert (lay.bblock i) (insert i S)) ((hcard2 S).trans (by omega)) fun c hc => ?_
    rcases List.mem_append.mp hc with hc | hc
    · simp only [List.mem_cons, List.not_mem_nil, or_false] at hc
      rcases hc with rfl | rfl <;> simp
    · have := hl c hc
      simp only [Finset.mem_union, Finset.mem_singleton, Finset.mem_insert] at this ⊢
      tauto
  | maps S hboot hcard hl hsub =>
    rw [hpend'] at hcard
    rw [hind] at hl hsub
    refine .maps (insert (lay.bblock i) (insert i S)) hboot
      ((Nat.add_le_add_right (hcard2 S) _).trans (by omega)) (fun c hc => ?_) fun c hc => ?_
    · rcases List.mem_append.mp hc with hc | hc
      · simp only [List.mem_cons, List.not_mem_nil, or_false] at hc
        rcases hc with rfl | rfl <;> simp
      · have := hl c hc
        simp only [Finset.mem_union, Finset.mem_singleton, Finset.mem_insert] at this ⊢
        tauto
    · have := hsub hc
      simp only [Finset.mem_union, Finset.mem_singleton, Finset.mem_insert] at this ⊢
      tauto

/-- **What `bmap` logs**: a data block and its bitmap block, and once an indirect block and its
bitmap block. -/
theorem bmapLog_costs (hboot : v.bit 0 = true) (bn : Nat) :
    Costs d (bmapLog lay sb v d bn) := by
  have hnone : ∀ {e : Halt}, Costs d ⟨[], .error e⟩ :=
    .fails ∅ (Nat.zero_le _) fun c hc => absurd hc List.not_mem_nil
  unfold bmapLog
  split
  case isTrue hdir =>
    unfold ensureAddrLog
    split
    · rcases ballocLog_cases lay hboot with ⟨e, hb⟩ | ⟨b, v', hb0, hboot', hb⟩
      · rw [hb]
        exact hnone
      · rw [hb]
        obtain ⟨hind, hpend⟩ := indirect_setAddr_direct (d := d) (b := b) hdir
        refine .maps {lay.bblock b} hboot' (by rw [hpend]; rfl) (fun c hc => ?_)
          (by rw [hind]; exact Finset.subset_union_right)
        have hc : c ∈ [lay.bblock b, b] := hc
        simp only [List.mem_cons, List.not_mem_nil, or_false] at hc
        rcases hc with rfl | rfl <;> simp
    · exact .maps ∅ hboot (by simp) (fun c hc => absurd hc List.not_mem_nil)
        Finset.subset_union_right
  case isFalse =>
    split
    · unfold ensureAddrLog
      split
      case isTrue hzero =>
        rcases ballocLog_cases lay hboot with ⟨e, hb⟩ | ⟨i, v', hi0, hboot', hb⟩
        · rw [hb]
          exact hnone
        · rw [hb]
          -- the indirect block is new, and then it is there
          obtain ⟨hind, -⟩ := indirect_setAddr_ndirect (d := d) hi0
          exact (costs_indirect lay hboot' (hind ▸ Finset.mem_singleton_self i)).of_fresh lay hzero hi0
      case isFalse hpos =>
        refine costs_indirect lay hboot ?_
        unfold indirect
        rw [if_neg hpos]
        exact Finset.mem_singleton_self _
    · exact hnone

/-- **What the loop of `writei` logs from an aligned offset on**: two blocks a turn, and what an
indirect block costs. -/
theorem writeLoopLog_costs (fuel k : Nat) (hboot : v.bit 0 = true) {off : Nat} {src : List Byte}
    (halign : src = [] ∨ off % bsize = 0) (hlen : src.length ≤ k * bsize) :
    ∃ S : Finset Nat, S.card ≤ 2 * k + pending d ∧
      ∀ c ∈ (writeLoopLog lay sb fuel v d off src).used, c ∈ S ∪ indirect d := by
  induction fuel generalizing v d off src k with
  | zero => exact ⟨∅, Nat.zero_le _, fun c hc => absurd hc List.not_mem_nil⟩
  | succ fuel ih =>
    rw [writeLoopLog]
    split
    · exact ⟨∅, Nat.zero_le _, fun c hc => absurd hc List.not_mem_nil⟩
    case isFalse hsrc =>
      have halign := halign.resolve_left hsrc
      have hpos : 0 < src.length := List.length_pos_iff.mpr hsrc
      have hstep : Costs d (bmapLog lay sb v d (off / bsize)) := bmapLog_costs lay hboot _
      obtain ⟨k, rfl⟩ : ∃ k', k = k' + 1 :=
        Nat.exists_eq_succ_of_ne_zero (by rintro rfl; omega)
      generalize bmapLog lay sb v d (off / bsize) = x at hstep
      cases hstep with
      | fails S hcard hl => exact ⟨S, by omega, hl⟩
      | @maps l b v' d' S hboot' hcard hl hind =>
        have hnext : src.drop (min src.length (bsize - off % bsize)) = [] ∨
            (off + min src.length (bsize - off % bsize)) % bsize = 0 := by
          rw [halign, Nat.sub_zero]
          rcases Nat.le_total src.length bsize with hle | hle
          · rw [Nat.min_eq_left hle]
            exact .inl List.drop_length
          · rw [Nat.min_eq_right hle]
            exact .inr (by rw [Nat.add_mod_right, halign])
        have hleft : (src.drop (min src.length (bsize - off % bsize))).length ≤ k * bsize := by
          rw [List.length_drop, halign]
          rw [Nat.succ_mul] at hlen
          omega
        obtain ⟨S', hcard', hl'⟩ := ih k (v := { v' with
          data := update v'.data b (overwrite (v'.data b) (off % bsize)
            (src.take (min src.length (bsize - off % bsize)))) }) (d := d') hboot' hnext hleft
        refine ⟨insert b (S ∪ S'), ?_, fun c hc => ?_⟩
        · have := Finset.card_insert_le b (S ∪ S')
          have := Finset.card_union_le S S'
          omega
        rcases List.mem_append.mp hc with hc | hc
        · have := hl c hc
          simp only [Finset.mem_union, Finset.mem_insert] at this ⊢
          tauto
        · rcases List.mem_append.mp hc with hc | hc
          · rw [List.mem_singleton.mp hc]
            simp
          · have := hl' c hc
            have hsub := @hind c
            simp only [Finset.mem_union, Finset.mem_insert] at this hsub ⊢
            tauto

theorem bmapLog_of_ptr {bn : Nat} (h : d.ptr v.data (some bn) ≠ 0) :
    bmapLog lay sb v d bn = ⟨[], .ok (d.ptr v.data (some bn), v, d)⟩ := by
  unfold Dinode.ptr at h ⊢
  unfold bmapLog ensureAddrLog
  dsimp only at h ⊢
  by_cases hdir : bn < ndirect
  · rw [if_pos hdir] at h
    rw [if_pos hdir, if_pos hdir, if_neg h]
    rfl
  rw [if_neg hdir] at h
  by_cases hind : bn < maxfile ∧ d.addrs ndirect ≠ 0
  · have hlt : bn - ndirect < nindirect := by
      unfold maxfile at hind
      omega
    rw [if_pos hind] at h
    rw [if_neg hdir, if_neg hdir, if_pos hind, if_pos hlt, if_neg hind.2]
    show (if _ then _ else _ : LogM _) = _
    rw [if_neg h]
    rfl
  · rw [if_neg hind] at h
    exact absurd rfl h

/-- The loop of `writei` for at most three blocks of data, of which the first, if it is written from
the middle on, is there. -/
theorem writeLoopLog_quota (hboot : v.bit 0 = true) {off : Nat} {src : List Byte}
    (hlen : src.length ≤ 3 * bsize)
    (hptr : off % bsize ≠ 0 → d.ptr v.data (some (off / bsize)) ≠ 0) (fuel : Nat) :
    ∃ S : Finset Nat, S.card ≤ 9 ∧
      ∀ c ∈ (writeLoopLog lay sb fuel v d off src).used, c ∈ S := by
  have hindirect := card_indirect_add_pending d
  by_cases halign : off % bsize = 0
  · obtain ⟨S, hcard, hl⟩ := writeLoopLog_costs lay (d := d) fuel 3 hboot (.inr halign) hlen
    exact ⟨S ∪ indirect d, (Finset.card_union_le _ _).trans (by omega), hl⟩
  cases fuel with
  | zero => exact ⟨∅, Nat.zero_le _, fun c hc => absurd hc List.not_mem_nil⟩
  | succ fuel =>
    rw [writeLoopLog, bmapLog_of_ptr lay (hptr halign)]
    split
    · exact ⟨∅, Nat.zero_le _, fun c hc => absurd hc List.not_mem_nil⟩
    have hnext : src.drop (min src.length (bsize - off % bsize)) = [] ∨
        (off + min src.length (bsize - off % bsize)) % bsize = 0 := by
      rcases Nat.le_total src.length (bsize - off % bsize) with hle | hle
      · rw [Nat.min_eq_left hle]
        exact .inl List.drop_length
      · rw [Nat.min_eq_right hle]
        unfold bsize at *
        exact .inr (by omega)
    have hleft : (src.drop (min src.length (bsize - off % bsize))).length ≤ 3 * bsize := by
      rw [List.length_drop]
      omega
    generalize d.ptr v.data (some (off / bsize)) = b
    obtain ⟨S, hcard, hl⟩ := writeLoopLog_costs lay (d := d) fuel 3 (v := { v with
      data := update v.data b (overwrite (v.data b) (off % bsize)
        (src.take (min src.length (bsize - off % bsize)))) }) hboot hnext hleft
    refine ⟨insert b (S ∪ indirect d), ?_, fun c hc => ?_⟩
    · have := Finset.card_insert_le b (S ∪ indirect d)
      have := Finset.card_union_le S (indirect d)
      omega
    · rcases List.mem_append.mp hc with hc | hc
      · exact absurd hc List.not_mem_nil
      · rcases List.mem_append.mp hc with hc | hc
        · rw [List.mem_singleton.mp hc]
          exact Finset.mem_insert_self ..
        · exact Finset.mem_insert_of_mem (hl c hc)

end Cost

/-- A disk of five bitmap blocks with one process writing to the inode in slot 0. -/
def fiveMaps (vol : Vol) (d : Dinode) : State where
  sb := ⟨20000, 19000, 200, by decide, by decide⟩
  vol := vol
  dinode := fun _ => d
  inode := fun _ => ⟨2, 1, true, true, d⟩
  file := fun _ => .unused
  proc := fun _ => .unused

/-- All blocks are in use except those of `free`. -/
def bitsBut (free : List Nat) (b : Nat) : Bool := !free.contains b

section BootFree

variable {lay : Layout} {sb : Superblock} {v : Vol} {data : Nat → Sector} {d : Dinode}
  {b i m : Nat} {free : List Nat}

theorem ballocLog_bitsBut (hlt : b < sb.size) (hfirst : ∀ c ∈ free, b < c) :
    ballocLog lay sb ⟨bitsBut (b :: free), data⟩ =
      ⟨[lay.bblock b, b], .ok (b, ⟨bitsBut free, update data b fun _ => 0#8⟩)⟩ := by
  have hfree : bitsBut (b :: free) b = false := by simp [bitsBut]
  have hbefore : ∀ c, c < b → bitsBut (b :: free) c = true := fun c hc => by
    have : c ∉ free := fun hmem => absurd (hfirst c hmem) (by omega)
    simp [bitsBut, hc.ne, this]
  have hrest : update (bitsBut (b :: free)) b true = bitsBut free := by
    funext c
    by_cases hc : c = b
    · have : b ∉ free := fun hmem => absurd (hfirst b hmem) (Nat.lt_irrefl b)
      simp [hc, bitsBut, this]
    · simp [hc, bitsBut]
  unfold ballocLog
  rw [balloc_of_first hlt hfree hbefore, hrest]
  rfl

theorem bmapLog_fresh (hv : v.bit = bitsBut (i :: b :: free)) (hd : d.addrs ndirect = 0)
    (hm : m < nindirect) (hi : i < sb.size) (hb : b < sb.size) (hib : i < b)
    (hfirst : ∀ c ∈ free, b < c) :
    ∃ v', v'.bit = bitsBut free ∧ v'.data i = setWord (fun _ => 0#8) m b ∧
      bmapLog lay sb v d (ndirect + m) =
        ⟨[lay.bblock i, i, lay.bblock b, b, i], .ok (b, v', d.setAddr ndirect i)⟩ := by
  obtain ⟨bit, data⟩ := v
  subst hv
  have hfirst' : ∀ c ∈ b :: free, i < c := fun c hc => by
    rcases List.mem_cons.mp hc with rfl | hc
    · exact hib
    · exact hib.trans (hfirst c hc)
  have hzero : wordAt ((update data i fun _ => 0#8) i) (ndirect + m - ndirect) = 0 := by
    rw [update_self, wordAt_zero]
  have hkept : (update (update data i fun _ => 0#8) b fun _ => 0#8) i
      = fun _ => 0#8 := by
    rw [update_of_ne hib.ne, update_self]
  unfold bmapLog ensureAddrLog
  rw [if_neg (by omega), if_pos (by omega), if_pos hd, ballocLog_bitsBut hi hfirst',
    Traced.mk_ok_bind]
  dsimp only [pure]
  rw [Traced.mk_ok_bind]
  dsimp only
  rw [if_pos hzero, ballocLog_bitsBut hb hfirst, Traced.mk_ok_bind]
  dsimp only
  rw [hkept, Nat.add_sub_cancel_left]
  exact ⟨_, rfl, update_self .., rfl⟩

/-- `bmap` makes a block in an indirect block that is there. -/
theorem bmapLog_next (hv : v.bit = bitsBut (b :: free)) (hd : d.addrs ndirect ≠ 0)
    (hm : m < nindirect) (hzero : wordAt (v.data (d.addrs ndirect)) m = 0) (hb : b < sb.size)
    (hfirst : ∀ c ∈ free, b < c) :
    ∃ v', bmapLog lay sb v d (ndirect + m) =
      ⟨[lay.bblock b, b, d.addrs ndirect], .ok (b, v', d)⟩ := by
  obtain ⟨bit, data⟩ := v
  subst hv
  have hzero' : wordAt (data (d.addrs ndirect)) (ndirect + m - ndirect) = 0 := by
    rwa [Nat.add_sub_cancel_left]
  unfold bmapLog ensureAddrLog
  rw [if_neg (by omega), if_pos (by omega), if_neg hd]
  refine ⟨?_, ?_⟩
  rotate_left
  · show (if _ then _ else _ : LogM _) = _
    rw [if_pos hzero', ballocLog_bitsBut hb hfirst, Traced.mk_ok_bind]
    rfl

theorem writeLoopLog_turn (fuel off : Nat) (src : List Byte) {l : List Nat} {d' : Dinode} {v' : Vol}
    (hb : bmapLog lay sb v d (off / bsize) = ⟨l, .ok (b, v', d')⟩) (halign : off % bsize = 0)
    (hlen : bsize ≤ src.length) :
    ∃ v'', v''.bit = v'.bit ∧ (∀ c, c ≠ b → v''.data c = v'.data c) ∧
      writeLoopLog lay sb (fuel + 1) v d off src =
        ⟨l ++ b :: (writeLoopLog lay sb fuel v'' d' (off + bsize) (src.drop bsize)).used,
          (writeLoopLog lay sb fuel v'' d' (off + bsize) (src.drop bsize)).val⟩ := by
  have hsrc : src ≠ [] := by
    rintro rfl
    exact absurd hlen (by decide)
  rw [writeLoopLog, if_neg hsrc, hb, Traced.mk_ok_bind]
  dsimp only
  rw [halign, Nat.sub_zero, Nat.min_eq_right hlen]
  exact ⟨{ v' with data := update v'.data b _ }, rfl,
    fun c hc => update_of_ne hc .., rfl⟩

end BootFree

/-- A file of `NDIRECT` blocks. -/
def twelveBlocks : Dinode :=
  { Dinode.zero with
    type := some .file, size := 6144, addrs := fun k => if k < ndirect then 100 + k else 0 }

/-- Five free blocks, one in each bitmap block, with block 0 among them. -/
def bootFree : Vol := ⟨bitsBut [0, 4096, 8192, 12288, 16384], fun _ _ => 0#8⟩

theorem writeLoopLog_bootFree (sb : Superblock) (hsb : sb.size = 20000) (src : List Byte)
    (hsrc : src.length = 3 * bsize) (fuel : Nat) :
    ∃ v d, d.size = 6144 ∧
      writeLoopLog ⟨10, 20⟩ sb (fuel + 3) bootFree twelveBlocks 6144 src =
        ⟨[20, 0, 21, 4096, 0] ++ 4096 :: ([22, 8192, 23, 12288, 8192] ++ 12288 ::
          ([24, 16384, 8192] ++ 16384 :: [])), .ok (v, d)⟩ := by
  have hin : ∀ c, c ≤ 16384 → c < sb.size := fun c hc => by omega
  obtain ⟨v1, hbit1, -, hmap1⟩ := @bmapLog_fresh ⟨10, 20⟩ sb bootFree twelveBlocks 4096 0 0
    [8192, 12288, 16384] rfl rfl (by decide) (hin 0 (by decide)) (hin 4096 (by decide)) (by decide)
    (by decide)
  obtain ⟨w1, hw1, -, hturn1⟩ := writeLoopLog_turn (fuel + 2) 6144 src hmap1 (by decide) (by omega)
  obtain ⟨v2, hbit2, hdata2, hmap2⟩ := @bmapLog_fresh ⟨10, 20⟩ sb w1
    (twelveBlocks.setAddr ndirect 0) 12288 8192 1 [16384] (hw1.trans hbit1) rfl (by decide)
    (hin 8192 (by decide)) (hin 12288 (by decide)) (by decide) (by decide)
  obtain ⟨w2, hw2, hkeep2, hturn2⟩ := writeLoopLog_turn (fuel + 1) 6656 (src.drop bsize) hmap2
    (by decide) (by rw [List.length_drop]; omega)
  have hzero : wordAt (w2.data 8192) 2 = 0 := by
    rw [hkeep2 8192 (by decide), hdata2, wordAt_setWord_of_ne _ _ (by decide), wordAt_zero]
  obtain ⟨v3, hmap3⟩ := @bmapLog_next ⟨10, 20⟩ sb w2
    ((twelveBlocks.setAddr ndirect 0).setAddr ndirect 8192) 16384 2 [] (hw2.trans hbit2)
    (by decide) (by decide) hzero (hin 16384 (by decide)) (by decide)
  obtain ⟨w3, -, -, hturn3⟩ := writeLoopLog_turn fuel 7168 ((src.drop bsize).drop bsize) hmap3
    (by decide) (by rw [List.length_drop, List.length_drop]; omega)
  have hend : ((src.drop bsize).drop bsize).drop bsize = [] := by
    rw [List.drop_drop, List.drop_drop, List.drop_eq_nil_iff]
    omega
  have hstop : ∀ v d off, writeLoopLog ⟨10, 20⟩ sb fuel v d off [] = ⟨[], .ok (v, d)⟩ :=
    fun v d off => by cases fuel <;> rfl
  rw [hend, hstop] at hturn3
  refine ⟨w3, (twelveBlocks.setAddr ndirect 0).setAddr ndirect 8192, rfl, ?_⟩
  have hoff2 : 6144 + bsize = 6656 := rfl
  have hoff3 : 6656 + bsize = 7168 := rfl
  rw [hturn1, hoff2, hturn2, hoff3, hturn3]
  rfl

theorem twelveBlocks_ptr (data : Nat → Sector) (bn : Nat) :
    twelveBlocks.ptr data (some bn) ≠ 0 ↔ bn * bsize < twelveBlocks.size := by
  have hsize : twelveBlocks.size = ndirect * bsize := rfl
  have hzero : twelveBlocks.addrs ndirect = 0 := rfl
  rw [hsize, Nat.mul_lt_mul_right (by decide)]
  by_cases hbn : bn < ndirect
  · have haddr : twelveBlocks.addrs bn = 100 + bn := if_pos hbn
    rw [Dinode.ptr_direct _ _ hbn, haddr]
    exact ⟨fun _ => hbn, fun _ => by omega⟩
  · unfold Dinode.ptr
    dsimp only
    rw [if_neg hbn, if_neg (fun h => h.2 hzero)]
    exact ⟨fun h => absurd rfl h, fun h => absurd h hbn⟩

end Xv6Mmap.Fs
