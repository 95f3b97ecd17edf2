import Xv6Mmap.FsLook
import Xv6Mmap.FsRuns
import Xv6Mmap.Lib.Bindings

/-!
# Directories are finite maps (`fs.c:513-578`, `sysfile.c:216-218`)

The bytes of a directory are a table of bindings (`slotsOf`): an entry is free, or binds a name, cut
to `DIRSIZ` bytes, to an inode number. The table stands for a partial map (`dirMap`). `dirOp` are the
operations on a directory that is in use: `dirlink`, `dirlookup`, and clearing the entry found as
`sys_unlink` does, each between the `ilock` and `iunlock` of its callers; an inode that was looked up
is given back in the end.

* `dirOp_behaves`: an operation that is admitted does what it does on the map.
* `directory_is_finite_map`: so does every sequence of them, names stay unique and the size stays a
  multiple of the size of an entry.
* `dirlink_self`: `dirlink` of a name that the directory has for itself, such as `.`, does not
  return. It gives back the inode it found with `iput`, which waits for the lock that the caller
  has.
-/

namespace Xv6Mmap.Fs

open Lib
open Function (update update_self update_of_ne update_eq_self_iff)

/-! ## Entries as bindings -/

/-- The binding of an entry, if it is in use. -/
def slotOf (de : List Byte) : Option (List Byte × Nat) :=
  if deInum de = 0 then none else some (deName de, deInum de)

/-- The table of bindings that a directory holds. -/
def slotsOf (bs : List Byte) : List (Option (List Byte × Nat)) :=
  (List.range (entries bs)).map fun k => slotOf (entry bs k)

/-- What the names of a directory are bound to. -/
def dirMap (bs : List Byte) : List Byte → Option Nat := bound (slotsOf bs)

/-- The entries fill the directory, and no name has two. -/
structure WellFormed (bs : List Byte) : Prop where
  size : bs.length = deSize * entries bs
  unique : UniqueKeys (slotsOf bs)

section Table

variable {bs de name : List Byte} {k : Nat}

theorem getElem?_slotsOf :
    (slotsOf bs)[k]? = if k < entries bs then some (slotOf (entry bs k)) else none := by
  by_cases hk : k < entries bs
  · simp [slotsOf, hk]
  · simp [slotsOf, hk]

/-- The first entry with a name is the first binding of what `strncmp` compares. -/
theorem dirMap_cname :
    dirMap bs (cname name) = (lookup bs name).map fun k => deInum (entry bs k) := by
  unfold dirMap bound slotsOf lookup
  rw [List.findSome?_map, List.find?_eq_findSome?_guard, List.map_findSome?]
  congr 1
  funext k
  have hname : deName (entry bs k) = cname name ↔ namecmp name (deName (entry bs k)) = true := by
    unfold namecmp deName
    rw [beq_iff_eq, cname_cname]
    exact eq_comm
  simp only [Function.comp, slotOf, hit, Option.guard]
  by_cases h0 : deInum (entry bs k) = 0
  · simp [h0]
  · simp only [h0, if_false, Option.bind_some, hname, ne_eq, not_false_eq_true, decide_true,
      Bool.true_and]
    split <;> rfl

theorem getElem?_of_lookup (h : lookup bs name = some k) :
    (slotsOf bs)[k]? = some (some (cname name, deInum (entry bs k))) := by
  have hlt : k < entries bs := List.mem_range.mp (List.mem_of_find?_eq_some h)
  have hhit := List.find?_some h
  unfold hit namecmp deName at hhit
  rw [Bool.and_eq_true, decide_eq_true_eq, beq_iff_eq, cname_cname] at hhit
  rw [getElem?_slotsOf, if_pos hlt, slotOf, if_neg hhit.1, deName, hhit.2]

theorem notMem_keys_of_lookup (h : lookup bs name = none) : cname name ∉ keys (slotsOf bs) := by
  rw [← bound_eq_none]
  exact (dirMap_cname).trans (by rw [h]; rfl)

theorem slotsOf_take (hk : k ≤ entries bs) :
    slotsOf (bs.take (deSize * k)) = (slotsOf bs).take k := by
  have hmul := mul_le_length hk
  have hent : entries (bs.take (deSize * k)) = k := by
    unfold entries
    rw [List.length_take, Nat.min_eq_left hmul]
    exact Nat.mul_div_cancel_left k (by decide)
  unfold slotsOf
  rw [hent, ← List.map_take, List.take_range, Nat.min_eq_left hk]
  refine List.map_congr_left fun j hj => ?_
  have hj : j < k := List.mem_range.mp hj
  rw [entry, entry, List.drop_take, List.take_take, Nat.min_eq_left]
  unfold deSize
  omega

theorem slotsOf_drop : slotsOf (bs.drop (deSize * k)) = (slotsOf bs).drop k := by
  have hent : entries (bs.drop (deSize * k)) = entries bs - k := by
    unfold entries deSize
    rw [List.length_drop]
    omega
  refine List.ext_getElem? fun j => ?_
  rw [getElem?_slotsOf, hent, List.getElem?_drop, getElem?_slotsOf]
  refine if_congr (by omega) ?_ rfl
  rw [entry, entry, List.drop_drop, Nat.mul_add]

theorem slotsOf_cons (h : de.length = deSize) : slotsOf (de ++ bs) = slotOf de :: slotsOf bs := by
  have hent : entries (de ++ bs) = entries bs + 1 := by
    unfold entries
    rw [List.length_append, h, Nat.add_comm]
    exact Nat.add_div_right _ (by decide)
  unfold slotsOf
  rw [hent, List.range_succ_eq_map, List.map_cons, entry_append_zero h, List.map_map]
  congr 1
  exact List.map_congr_left fun j _ => by rw [Function.comp, entry_append_succ h]

theorem length_splice {src : List Byte} {off : Nat} (h : off ≤ bs.length) :
    (splice bs src off).length = max bs.length (off + src.length) := by
  unfold splice
  simp only [List.length_append, List.length_take, List.length_drop]
  omega

/-- Writing an entry is putting its binding in its place. -/
theorem slotsOf_splice (hde : de.length = deSize) (hk : k ≤ entries bs) :
    slotsOf (splice bs de (deSize * k)) = put (slotsOf bs) k (slotOf de) := by
  have hmul := mul_le_length hk
  have htake : (bs.take (deSize * k)).length = deSize * k := by
    rw [List.length_take, Nat.min_eq_left hmul]
  have hk' : k ≤ entries (splice bs de (deSize * k)) := by
    unfold entries
    rw [length_splice hmul]
    unfold deSize
    omega
  have hsplit : splice bs de (deSize * k)
      = bs.take (deSize * k) ++ (de ++ bs.drop (deSize * (k + 1))) := by
    rw [splice, hde, List.append_assoc, Nat.mul_succ]
  rw [put, ← slotsOf_take hk, ← slotsOf_drop, ← slotsOf_cons hde,
    ← List.take_append_drop k (slotsOf (splice bs de (deSize * k))), ← slotsOf_take hk', ← slotsOf_drop,
    hsplit]
  congr 2
  · rw [List.take_left' htake]
  · rw [List.drop_left' htake]

theorem entries_splice (hde : de.length = deSize) (hlen : bs.length = deSize * entries bs)
    (hk : k ≤ entries bs) :
    (splice bs de (deSize * k)).length = deSize * entries (splice bs de (deSize * k)) := by
  unfold entries at *
  rw [length_splice (mul_le_length hk), hde]
  unfold deSize at *
  omega

/-- A free entry, or the one after the last, is a free place of the table. -/
theorem free_of_deInum (hk : k ≤ entries bs) (hfree : k < entries bs → deInum (entry bs k) = 0) :
    Free (slotsOf bs) k := by
  rcases Nat.lt_or_eq_of_le hk with hlt | rfl
  · refine .inl ?_
    rw [getElem?_slotsOf, if_pos hlt, slotOf, if_pos (hfree hlt)]
  · exact .inr (by simp [slotsOf])

theorem slotOf_dirent {inum : Nat} (hpos : 0 < inum) (hlt : inum < 65536) (name : List Byte) :
    slotOf (dirent inum name) = some (cname name, inum) := by
  rw [slotOf, deInum_dirent hlt, deName_dirent, if_neg (Nat.ne_of_gt hpos)]

/-- A new entry in a free place adds its binding. -/
theorem WellFormed.link (h : WellFormed bs) {inum : Nat} (hpos : 0 < inum) (hlt : inum < 65536)
    (hnew : lookup bs name = none) (hk : k ≤ entries bs)
    (hfree : k < entries bs → deInum (entry bs k) = 0) :
    WellFormed (splice bs (dirent inum name) (deSize * k)) ∧
      dirMap (splice bs (dirent inum name) (deSize * k))
        = update (dirMap bs) (cname name) (some inum) := by
  have hde := length_dirent inum name
  have hplace := free_of_deInum hk hfree
  have hkey := notMem_keys_of_lookup hnew
  have hslots : slotsOf (splice bs (dirent inum name) (deSize * k))
      = put (slotsOf bs) k (some (cname name, inum)) := by
    rw [slotsOf_splice hde hk, slotOf_dirent hpos hlt]
  refine ⟨⟨entries_splice hde h.size hk, ?_⟩, ?_⟩
  · rw [hslots]
    exact h.unique.fill hplace hkey
  · unfold dirMap
    rw [hslots, bound_fill hplace hkey]

/-- Clearing the entry of a name takes its binding away. -/
theorem WellFormed.clear (h : WellFormed bs) (hk : lookup bs name = some k) :
    WellFormed (splice bs (List.replicate deSize 0#8) (deSize * k)) ∧
      dirMap (splice bs (List.replicate deSize 0#8) (deSize * k))
        = update (dirMap bs) (cname name) none := by
  have hde : (List.replicate deSize 0#8).length = deSize := List.length_replicate
  have hle : k ≤ entries bs := Nat.le_of_lt (List.mem_range.mp (List.mem_of_find?_eq_some hk))
  have hslots : slotsOf (splice bs (List.replicate deSize 0#8) (deSize * k))
      = put (slotsOf bs) k none := slotsOf_splice hde hle
  refine ⟨⟨entries_splice hde h.size hle, ?_⟩, ?_⟩
  · rw [hslots]
    exact h.unique.clear (getElem?_of_lookup hk)
  · unfold dirMap
    rw [hslots, bound_clear h.unique (getElem?_of_lookup hk)]

end Table

/-! ## Writing entries -/

/-- The entry that `dirlink` writes: the first that is free, or the one after the last. -/
def freePlace (bs : List Byte) : Nat :=
  ((List.range (entries bs)).find? fun k => decide (deInum (entry bs k) = 0)).getD (entries bs)

theorem freePlace_spec (bs : List Byte) :
    freePlace bs ≤ entries bs ∧
      (freePlace bs < entries bs → deInum (entry bs (freePlace bs)) = 0) := by
  unfold freePlace
  cases h : (List.range (entries bs)).find? fun k => decide (deInum (entry bs k) = 0) with
  | none => exact ⟨Nat.le_refl _, fun hlt => absurd hlt (Nat.lt_irrefl _)⟩
  | some k =>
    have hlt : k < entries bs := List.mem_range.mp (List.mem_of_find?_eq_some h)
    exact ⟨Nat.le_of_lt hlt, fun _ => by simpa using List.find?_some h⟩

section Specs

variable {G : Fin ninode → Int} {L : List (Fin ninode)} {s : State} {a : Fin ninode} {m : Node}

theorem freeDirent_run (h : Rest G L s) (ha : a ∈ L) (hm : s.nodes (s.inode a).inum = some m)
    (ht : m.type = .dir) (hlen : m.bytes.length = deSize * entries m.bytes) {fuel k : Nat}
    (hk : k ≤ entries m.bytes) (hfuel : entries m.bytes < k + fuel) :
    freeDirent a fuel (deSize * k) s = .ok (deSize * ((List.range' k (entries m.bytes - k)).find?
      fun k => decide (deInum (entry m.bytes k) = 0)).getD (entries m.bytes), s) := by
  obtain ⟨m', hm', -, hsize, -⟩ := h.held.node ha h.disk
  rw [hm] at hm'
  cases hm'
  induction fuel generalizing k with
  | zero => omega
  | succ fuel ih =>
    have hget : getInode a s = .ok (s.inode a, s) := rfl
    rw [freeDirent, stateT_bind, hget]
    simp only [hsize]
    by_cases hlt : k < entries m.bytes
    · have hin : deSize * k < m.bytes.length := by
        unfold deSize at *
        omega
      obtain ⟨n, hn⟩ : ∃ n, entries m.bytes - k = n + 1 := ⟨entries m.bytes - k - 1, by omega⟩
      rw [if_pos hin, stateT_bind, readDirent_run h ha hm ht hlt, hn, List.range'_succ]
      by_cases hzero : deInum (entry m.bytes k) = 0
      · rw [List.find?_cons_of_pos (by simpa using hzero)]
        simp only [hzero, if_true]
        rfl
      · have hn' : n = entries m.bytes - (k + 1) := by omega
        rw [List.find?_cons_of_neg (by simpa using hzero), hn', ← ih hlt (by omega)]
        simp only [hzero, if_false]
        rfl
    · have hend : k = entries m.bytes := by omega
      rw [if_neg (by rw [hend, ← hlen]; exact Nat.lt_irrefl _), hend, Nat.sub_self]
      rfl

/-- `writei` of a file or directory, from where it is long enough. -/
theorem writei_rest (h : Rest G L s) (ha : a ∈ L) (hm : s.nodes (s.inode a).inum = some m)
    (ht : m.type ≠ .dev) {off : Nat} (hoff : off ≤ m.bytes.length) (src : List Byte) :
    Wp (writei a off src) s
      (fun r s' => r = -1 ∧ maxfile * bsize < off + src.length ∨
        r = src.length ∧ Rest G L s' ∧
          Keeps 1 (fun N N' => N' = update N (s.inode a).inum
            (some { m with bytes := splice m.bytes src off })) s s')
      fun _ => ¬ s.enough (s.inode a).inum (off + src.length) := by
  refine (writei_held h.held ha 1 off src).mono ?_ fun _ he => he h.disk
  rintro r s' ⟨h', hk, ⟨d, hinode⟩, -⟩
  obtain ⟨hd', m', hm', hw⟩ := hk.disk h.disk
  rw [hm] at hm'
  cases hm'
  rcases hw with ⟨-, hdev | ⟨hneg, hshort | hbig⟩⟩ | ⟨-, hr, -, hN⟩
  · exact absurd hdev ht
  · omega
  · exact .inl ⟨hneg, hbig⟩
  · refine .inr ⟨hr, ⟨h', hd', fun b hb => ?_⟩, hk.imp fun _ => hN⟩
    rw [hinode]
    by_cases hba : b = a
    · subst hba
      exact absurd ha hb
    · rw [update_of_ne hba]
      exact h.unlocked b hb

/-- No blocks are needed to write where the file is already. -/
theorem Disk.enough_of_le (hd : Disk s) {i e : Nat} (hm : s.nodes i = some m)
    (he : e ≤ m.bytes.length) : s.enough i e := by
  cases ht : (s.dinode i).type with
  | none => simp [State.nodes, nodeOf, ht] at hm
  | some type =>
    have hused : (s.dinode i).type ≠ none := by simp [ht]
    rw [nodes_eq_some ht] at hm
    cases hm
    rw [length_bytes] at he
    have hextra : (s.dinode i).extra e = 0 := by
      refine if_neg fun hind => ?_
      have hpos := (hd.covers i hused (ndirect + 0)).mpr (by rw [Nat.add_zero]; omega)
      rw [ptrs_of_used rfl hused, Dinode.ptr_indirect _ _ (by decide), if_pos hind.2] at hpos
      exact hpos rfl
    have := blocks_mono he
    unfold State.enough
    omega

/-- `iput(ip)` of an inode that the caller has locked waits for the caller. -/
theorem iput_locked (hl : (s.inode a).locked = true) : iput a s = .error .deadlock := by
  have hacq : acquiresleep a s = .error .deadlock := by
    unfold acquiresleep
    rw [stateT_bind]
    change (if (s.inode a).locked = true then throw Halt.deadlock else _ : FsM Unit) s = _
    rw [if_pos hl]
    rfl
  unfold iput
  rw [stateT_bind, hacq]

/-- The end of the entry that `dirlink` writes. -/
def linkEnd (bs : List Byte) : Nat := deSize * freePlace bs + deSize

/-- The errors of `dirlink` on inode `i` with the inodes of `L` locked: those of `dirlookup`, an inode
found that is locked, and no room for another entry. -/
def LinksNot (L : List (Fin ninode)) (s : State) (i : Nat) (bs name : List Byte) : Prop :=
  LooksNot s bs (lookup bs name) ∨
    match lookup bs name with
    | some k => ∃ b ∈ L, (s.inode b).inum = deInum (entry bs k)
    | none => maxfile * bsize < linkEnd bs ∨ ¬ s.enough i (linkEnd bs)

/-- What `dirlink` with result `r` does: nothing if the name is there. -/
def LinkDoes (G : Fin ninode → Int) (s : State) (i : Nat) (m : Node) (name : List Byte)
    (inum : Nat) (r : Bool) (s' : State) : Prop :=
  match lookup m.bytes name with
  | some _ => r = false ∧ Quiet G s s'
  | none => r = true ∧
    Keeps G (fun N N' => N' = update N i (some { m with
      bytes := splice m.bytes (dirent inum name) (deSize * freePlace m.bytes) })) s s'

theorem dirlink_rest (h : Rest G L s) (ha : a ∈ L) (hm : s.nodes (s.inode a).inum = some m)
    (ht : m.type = .dir) (name : List Byte) (inum : Nat) :
    Wp (dirlink a name inum) s
      (fun r s' => Rest G L s' ∧ LinkDoes G s (s.inode a).inum m name inum r s')
      fun _ => LinksNot L s (s.inode a).inum m.bytes name := by
  unfold dirlink LinkDoes LinksNot
  refine (dirlookup_rest h ha hm ht name).bind ?_ fun _ he => .inl he
  rintro (_ | ⟨b, off⟩) s1 ⟨hq1, hr⟩
  · obtain ⟨hnone, hlen, rfl⟩ := hr
    obtain ⟨hplace, -⟩ := freePlace_spec m.bytes
    have hfree := freeDirent_run h ha hm ht hlen (Nat.zero_le _)
      (show entries m.bytes < 0 + (m.bytes.length + 1) by
        have := Nat.div_le_self m.bytes.length deSize
        unfold entries
        omega)
    rw [Nat.sub_zero, ← List.range_eq_range'] at hfree
    obtain ⟨m', hm', -, hsize, -⟩ := h.held.node ha h.disk
    rw [hm] at hm'
    cases hm'
    simp only [wp_bind, wp_getInode, hsize, hnone]
    refine wp_of_run hfree ?_
    refine (writei_rest h ha hm (by simp [ht]) (mul_le_length hplace) _).mono ?_ ?_
    · rw [length_dirent]
      rintro r s2 (⟨rfl, hbig⟩ | ⟨rfl, h2, hk2⟩)
      · exact .inr (.inl hbig)
      · rw [if_neg (by simp)]
        exact ⟨h2, rfl, hk2.mono fun _ _ => Int.one_pos⟩
    · rw [length_dirent]
      exact fun _ he => .inr (.inr he)
  · obtain ⟨h1, hvalid, k, hk, -, hinum⟩ := hr
    simp only [hk, wp_bind]
    by_cases hb : b ∈ L
    · -- the inode found is locked
      have hsame := hq1.inum b (h.held.lock b hb).2.2
      exact wp_of_error (iput_locked (h1.held.lock b hb).1)
        (.inr ⟨b, hb, hsame.symm.trans hinum⟩)
    · refine (iput_rest h1 hb (pos_add_one h.held.nonneg b) ?_).mono ?_ fun _ he => he.elim
      · intro hv _
        rw [add_sub_cancel_right]
        exact hvalid hv
      · rintro - s2 ⟨h2, hq2⟩
        rw [add_sub_cancel_right] at h2
        exact ⟨h2, rfl, hq1.trans hq2.all⟩

/-- **`dirlink` of a name that the directory has for itself** does not return: the inode that
`dirlookup` finds is the one that the caller has locked. -/
theorem dirlink_self (h : Rest G L s) (ha : a ∈ L) (hm : s.nodes (s.inode a).inum = some m)
    (ht : m.type = .dir) (hlen : m.bytes.length = deSize * entries m.bytes) {name : List Byte}
    (hself : dirMap m.bytes (cname name) = some (s.inode a).inum) (inum : Nat) :
    dirlink a name inum s = .error .deadlock := by
  obtain ⟨hlock, -, hpos⟩ := h.held.lock a ha
  rw [dirMap_cname, Option.map_eq_some_iff] at hself
  obtain ⟨k, hk, hself⟩ := hself
  have hcached : s.Cacheable (deInum (entry m.bytes k)) :=
    .inl ⟨a, by rwa [h.held.ref a], hself.symm⟩
  have hlook := (dirlookup_rest h ha hm ht name).mono (fun _ _ hr => hr) fun _ he => by
    rcases he with hne | ⟨j, hj, hnot⟩
    · exact hne hlen
    · rw [hk] at hj
      cases hj
      exact hnot hcached
  obtain ⟨r, s1, hrun, hq, hr⟩ := hlook.returns
  unfold dirlink
  rw [stateT_bind, hrun]
  rcases r with _ | ⟨b, off⟩
  · rw [hk] at hr
    cases hr.1
  obtain ⟨h1, -, j, hj, -, hinum⟩ := hr
  rw [hk] at hj
  cases hj
  -- one inode has one slot
  have hrefs : ∀ c, 0 < G c → 0 < (s1.inode c).ref := fun c hc => by
    rw [h1.held.ref c]
    exact pos_add b c hc
  have hb : 0 < (s1.inode b).ref := by
    rw [h1.held.ref b]
    exact pos_add_one h.held.nonneg b
  have hba : b = a := h1.disk.unique b a hb (hrefs a hpos)
    (hinum.trans (hself.trans (hq.inum a hpos).symm))
  subst hba
  change (iput b >>= fun _ => pure false : FsM Bool) s1 = _
  rw [stateT_bind, iput_locked (h1.held.lock b ha).1]

end Specs

/-! ## Operations on a directory -/

inductive DirOp where
  | link (name : List Byte) (inum : Nat)
  | lookup (name : List Byte)
  | clear (name : List Byte)

/-- What an operation returns: a name is found with its inode number and the offset of its entry. -/
inductive DirRet where
  | linked (done : Bool)
  | found (r : Option (Nat × Nat))
  | cleared (done : Bool)

/-- `sys_unlink` clears the entry at `off`. -/
def clearEntry (dp : Fin ninode) (off : Nat) : FsM Unit := do
  let r ← writei dp off (List.replicate deSize 0#8)
  if r ≠ deSize then throw (.panic "unlink: writei") else return ()

/-- An operation on the directory `dp`, between the `ilock` and `iunlock` of its caller. -/
def dirOp (dp : Fin ninode) : DirOp → FsM DirRet
  | .link name inum => do
    ilock dp
    let done ← dirlink dp name inum
    iunlock dp
    return .linked done
  | .lookup name => do
    ilock dp
    match ← dirlookup dp name with
    | none =>
      iunlock dp
      return .found none
    | some (ip, off) =>
      let x ← getInode ip
      iunlock dp
      iput ip
      return .found (some (x.inum, off))
  | .clear name => do
    ilock dp
    match ← dirlookup dp name with
    | none =>
      iunlock dp
      return .cleared false
    | some (ip, off) =>
      clearEntry dp off
      iunlock dp
      iput ip
      return .cleared true

/-- The content of the directory `dp`. -/
def State.dirBytes (s : State) (dp : Fin ninode) : List Byte :=
  ((s.nodes (s.inode dp).inum).map Node.bytes).getD []

/-- `dp` is a directory in use, between two operations. -/
structure IsDir (dp : Fin ninode) (s : State) : Prop where
  settled : Settled s
  ref : 0 < (s.inode dp).ref
  node : ∃ m, s.nodes (s.inode dp).inum = some m ∧ m.type = .dir ∧ WellFormed m.bytes

/-- The operation can be made: there is a slot of the cache for an inode that is found; and for a new
entry there is room below `MAXFILE` blocks and on the disk. A name that is linked again must not be
one of the directory for itself. -/
def State.Admits (s : State) (dp : Fin ninode) : DirOp → Prop
  | .link name inum => 0 < inum ∧ inum < 65536 ∧
    (∀ i ∈ dirMap (s.dirBytes dp) (cname name), i ≠ (s.inode dp).inum ∧ s.Cacheable i) ∧
    (dirMap (s.dirBytes dp) (cname name) = none →
      linkEnd (s.dirBytes dp) ≤ maxfile * bsize ∧
        s.enough (s.inode dp).inum (linkEnd (s.dirBytes dp)))
  | .lookup name | .clear name => ∀ i ∈ dirMap (s.dirBytes dp) (cname name), s.Cacheable i

/-- What an operation does to a finite map. -/
def mapStep (D : List Byte → Option Nat) : DirOp → List Byte → Option Nat
  | .link name inum =>
    if D (cname name) = none then update D (cname name) (some inum) else D
  | .lookup _ => D
  | .clear name => update D (cname name) none

/-- The operation on a directory with content `bs`, which becomes `bs'`, returned `r` as on a finite
map. -/
def Behaves (bs bs' : List Byte) : DirOp → DirRet → Prop
  | .link name inum, r =>
    match dirMap bs (cname name) with
    | some _ => r = .linked false ∧ bs' = bs
    | none => r = .linked true ∧ dirMap bs' = update (dirMap bs) (cname name) (some inum)
  | .lookup name, r => bs' = bs ∧
    match dirMap bs (cname name) with
    | some i => ∃ k, r = .found (some (i, deSize * k)) ∧
      (slotsOf bs)[k]? = some (some (cname name, i))
    | none => r = .found none
  | .clear name, r =>
    match dirMap bs (cname name) with
    | some _ => r = .cleared true ∧ dirMap bs' = update (dirMap bs) (cname name) none
    | none => r = .cleared false ∧ bs' = bs

theorem Behaves.map_eq {bs bs' : List Byte} {op : DirOp} {r : DirRet} (h : Behaves bs bs' op r) :
    dirMap bs' = mapStep (dirMap bs) op := by
  cases op with
  | link name inum =>
    simp only [Behaves, mapStep] at h ⊢
    cases hb : dirMap bs (cname name) with
    | none =>
      simp only [hb] at h
      rw [if_pos rfl, h.2]
    | some i =>
      simp only [hb] at h
      rw [if_neg (by simp), h.2]
  | lookup name => exact congrArg dirMap h.1
  | clear name =>
    simp only [Behaves, mapStep] at h ⊢
    cases hb : dirMap bs (cname name) with
    | none =>
      simp only [hb] at h
      rw [h.2, update_eq_self_iff.mpr hb.symm]
    | some i =>
      simp only [hb] at h
      exact h.2

section Ops

variable {G : Fin ninode → Int} {s s' : State} {dp : Fin ninode} {m : Node}

theorem Settled.rest (h : Settled s) : Rest (fun b => (s.inode b).ref) [] s :=
  ⟨⟨fun _ => rfl, h.nonneg, fun _ hb => nomatch hb⟩, h.disk, fun b _ => h.unlocked b⟩

theorem Rest.settled (h : Rest G [] s) : Settled s :=
  ⟨h.disk, fun b => by rw [h.held.ref b]; exact h.held.nonneg b, fun b => h.unlocked b nofun⟩

/-- Where references and inode numbers are as they were, so are the slots to be had. -/
theorem Rest.cacheable {L L' : List (Fin ninode)} (h : Rest G L s) (h' : Rest G L' s')
    (hq : Quiet G s s') {i : Nat} (hc : s.Cacheable i) : s'.Cacheable i := by
  rcases hc with ⟨b, hb, hi⟩ | ⟨b, hb⟩
  · rw [h.held.ref b] at hb
    exact .inl ⟨b, by rwa [h'.held.ref b], (hq.inum b hb).trans hi⟩
  · exact .inr ⟨b, by rw [h'.held.ref b, ← h.held.ref b, hb]⟩

theorem Quiet.enough (hq : Quiet G s s') {i e : Nat} (h : s.enough i e) : s'.enough i e := by
  unfold State.enough at *
  rwa [hq.vol, hq.dinode, hq.sb]

theorem dirBytes_eq (hm : s.nodes (s.inode dp).inum = some m) : s.dirBytes dp = m.bytes := by
  rw [State.dirBytes, hm]
  rfl

/-- Where the directory is between operations and its node is `m'`. -/
theorem Rest.isDir (h : Rest G [] s) (hpos : 0 < G dp) (hm : s.nodes (s.inode dp).inum = some m)
    (ht : m.type = .dir) (hw : WellFormed m.bytes) : IsDir dp s :=
  ⟨h.settled, by rwa [h.held.ref dp], m, hm, ht, hw⟩

theorem ilock_dir (h : Rest G [] s) (hpos : 0 < G dp) (hm : s.nodes (s.inode dp).inum = some m) :
    Wp (ilock dp) s (fun _ s' => Rest G [dp] s' ∧ Quiet 1 s s' ∧
      s'.nodes (s'.inode dp).inum = some m) fun _ => False := by
  refine (ilock_rest h List.not_mem_nil hpos).mono ?_ fun _ hnone => ?_
  · rintro - s' ⟨h', hq⟩
    refine ⟨h', hq, ?_⟩
    rw [hq.nodes, hq.inum dp Int.one_pos, hm]
  · rw [hm] at hnone
    cases hnone

theorem IsDir.quiet (h : IsDir dp s) (h' : Rest (fun b => (s.inode b).ref) [] s')
    (hq : Quiet (fun b => (s.inode b).ref) s s') :
    IsDir dp s' ∧ s'.dirBytes dp = s.dirBytes dp := by
  obtain ⟨m, hm, ht, hw⟩ := h.node
  have hm' : s'.nodes (s'.inode dp).inum = some m := by rw [hq.nodes, hq.inum dp h.ref, hm]
  exact ⟨h'.isDir h.ref hm' ht hw, by rw [dirBytes_eq hm, dirBytes_eq hm']⟩

theorem linkOp_behaves {name : List Byte} {inum : Nat} (h : IsDir dp s)
    (hok : s.Admits dp (.link name inum)) :
    Wp (dirOp dp (.link name inum)) s (fun r s' => IsDir dp s' ∧
      Behaves (s.dirBytes dp) (s'.dirBytes dp) (.link name inum) r) fun _ => False := by
  obtain ⟨m, hm, ht, hw⟩ := h.node
  have hrest := h.settled.rest
  obtain ⟨h0, hmax, hthere, hnew⟩ := hok
  rw [dirBytes_eq hm, dirMap_cname] at hthere hnew
  simp only [Behaves, dirBytes_eq hm, dirMap_cname]
  rw [dirOp, wp_bind]
  refine (ilock_dir hrest h.ref hm).imp ?_
  rintro - s1 ⟨h1, hq1, hm1⟩
  have hdp : (s1.inode dp).inum = (s.inode dp).inum := hq1.inum dp Int.one_pos
  refine (dirlink_rest h1 List.mem_cons_self hm1 ht name inum).bind ?_ ?_
  · rintro r s2 ⟨h2, hdoes⟩
    refine (iunlock_rest h2 List.not_mem_nil).next ?_
    rintro - s3 ⟨h3, hq3⟩
    unfold LinkDoes at hdoes
    cases hl : lookup m.bytes name with
    | some k =>
      simp only [hl] at hdoes
      obtain ⟨rfl, hq2⟩ := hdoes
      obtain ⟨hdir, hbytes⟩ := h.quiet h3 (hq1.all.trans (hq2.trans hq3.all))
      exact ⟨hdir, rfl, by rw [hbytes, dirBytes_eq hm]⟩
    | none =>
      simp only [hl] at hdoes
      obtain ⟨rfl, hk2⟩ := hdoes
      obtain ⟨-, hN⟩ := hk2.disk h1.disk
      obtain ⟨hplace, hfree⟩ := freePlace_spec m.bytes
      obtain ⟨hw', hmap⟩ := hw.link h0 hmax hl hplace hfree
      have hm3 : s3.nodes (s3.inode dp).inum = some { m with
          bytes := splice m.bytes (dirent inum name) (deSize * freePlace m.bytes) } := by
        rw [hq3.nodes, hN, hq3.inum dp Int.one_pos, hk2.inum dp h.ref, update_self]
      exact ⟨h3.isDir h.ref hm3 ht hw', rfl, by rw [dirBytes_eq hm3]; exact hmap⟩
  · rintro - hnot
    unfold LinksNot LooksNot at hnot
    cases hl : lookup m.bytes name with
    | some k =>
      simp only [hl] at hthere hnot
      obtain ⟨hself, hslot⟩ := hthere _ rfl
      rcases hnot with (hlen | ⟨j, hj, hnot⟩) | ⟨b, hb, hi⟩
      · exact hlen hw.size
      · cases hj
        exact hnot (hrest.cacheable h1 hq1.all hslot)
      · rw [List.mem_singleton.mp hb, hdp] at hi
        exact hself hi.symm
    | none =>
      simp only [hl] at hnew hnot
      obtain ⟨hroom, henough⟩ := hnew rfl
      rcases hnot with (hlen | ⟨j, hj, -⟩) | hbig | hfull
      · exact hlen hw.size
      · cases hj
      · omega
      · rw [hdp] at hfull
        exact hfull (hq1.enough henough)

theorem clearEntry_rest {L : List (Fin ninode)} (h : Rest G L s) (ha : dp ∈ L)
    (hm : s.nodes (s.inode dp).inum = some m) (ht : m.type = .dir) {k : Nat}
    (hk : k < entries m.bytes) :
    Wp (clearEntry dp (deSize * k)) s
      (fun _ s' => Rest G L s' ∧ (∀ b, (s'.inode b).valid = (s.inode b).valid) ∧
        Keeps 1 (fun N N' => N' = update N (s.inode dp).inum (some { m with
          bytes := splice m.bytes (List.replicate deSize 0#8) (deSize * k) })) s s')
      fun _ => False := by
  have hend : deSize * k + deSize ≤ m.bytes.length := mul_le_length (k := k + 1) hk
  have hmax := h.disk.length_le hm
  unfold clearEntry
  refine ((writei_rest h ha hm (by rw [ht]; nofun) (mul_le_length (Nat.le_of_lt hk)) _).and
    (writei_held h.held ha 1 _ _)).bind ?_ ?_
  · rw [List.length_replicate]
    rintro r s' ⟨⟨-, hbig⟩ | ⟨rfl, h', hk'⟩, -, -, ⟨d, hinode⟩, -⟩
    · omega
    · rw [if_neg (by simp)]
      refine ⟨h', fun b => ?_, hk'⟩
      rw [hinode]
      by_cases hb : b = dp
      · subst hb
        rw [update_self]
      · rw [update_of_ne hb]
  · rw [List.length_replicate]
    exact fun _ he => he.1 (h.disk.enough_of_le hm hend)

/-- Leaving the directory, and giving back an inode that was found in it. -/
theorem giveBack_rest {b : Fin ninode} (hnn : ∀ c, 0 ≤ G c) (h : Rest (G + one b) [dp] s)
    (hvalid : (s.inode b).valid = true → 0 < G b) :
    Wp (iunlock dp) s (fun _ s1 => Wp (iput b) s1
      (fun _ s' => Rest G [] s' ∧ Quiet 1 s s') fun _ => False) fun _ => False := by
  refine ((iunlock_rest h List.not_mem_nil).and iunlock_spec).mono ?_ fun _ he => he.1
  rintro - s1 ⟨⟨h1, hq1⟩, hs1⟩
  refine (iput_rest h1 List.not_mem_nil (pos_add_one hnn b) fun hv _ => ?_).imp ?_
  · rw [add_sub_cancel_right]
    refine hvalid ?_
    rw [hs1] at hv
    by_cases hb : b = dp
    · subst hb
      rwa [slot_self] at hv
    · rwa [slot_of_ne _ _ hb] at hv
  · rintro - s2 ⟨h2, hq2⟩
    rw [add_sub_cancel_right] at h2
    exact ⟨h2, hq1.trans hq2⟩

/-- `dirlookup` in a directory in use for whose inode there is a slot. -/
theorem dirlookup_dir {name : List Byte} (h : IsDir dp s)
    (hm : s.nodes (s.inode dp).inum = some m) (ht : m.type = .dir)
    (hlen : m.bytes.length = deSize * entries m.bytes)
    (hok : ∀ i ∈ dirMap m.bytes (cname name), s.Cacheable i) :
    Wp (ilock dp) s (fun _ s1 => Quiet 1 s s1 ∧ Rest (fun b => (s.inode b).ref) [dp] s1 ∧
      s1.nodes (s1.inode dp).inum = some m ∧ Wp (dirlookup dp name) s1
        (Looks (fun b => (s.inode b).ref) [dp] s1 m.bytes (lookup m.bytes name)) fun _ => False)
      fun _ => False := by
  refine (ilock_dir h.settled.rest h.ref hm).imp ?_
  rintro - s1 ⟨h1, hq1, hm1⟩
  refine ⟨hq1, h1, hm1, (dirlookup_rest h1 List.mem_cons_self hm1 ht name).mono
    (fun _ _ hr => hr) ?_⟩
  rintro - (hne | ⟨k, hk, hnot⟩)
  · exact hne hlen
  · rw [dirMap_cname, hk] at hok
    exact hnot (h.settled.rest.cacheable h1 hq1.all (hok _ rfl))

theorem lookupOp_behaves {name : List Byte} (h : IsDir dp s) (hok : s.Admits dp (.lookup name)) :
    Wp (dirOp dp (.lookup name)) s (fun r s' => IsDir dp s' ∧
      Behaves (s.dirBytes dp) (s'.dirBytes dp) (.lookup name) r) fun _ => False := by
  obtain ⟨m, hm, ht, hw⟩ := h.node
  simp only [State.Admits, dirBytes_eq hm] at hok
  simp only [Behaves, dirBytes_eq hm, dirMap_cname]
  rw [dirOp, wp_bind]
  refine (dirlookup_dir h hm ht hw.size hok).imp ?_
  rintro - s1 ⟨hq1, h1, hm1, hlook⟩
  rw [wp_bind]
  refine hlook.imp ?_
  rintro (_ | ⟨b, off⟩) s2 ⟨hq2, hr⟩
  · obtain ⟨hnone, -, rfl⟩ := hr
    refine (iunlock_rest h1 List.not_mem_nil).next ?_
    rintro - s3 ⟨h3, hq3⟩
    obtain ⟨hdir, hbytes⟩ := h.quiet h3 (hq1.all.trans hq3.all)
    refine ⟨hdir, by rw [hbytes, dirBytes_eq hm], ?_⟩
    rw [hnone]
    rfl
  · obtain ⟨h2, hvalid, k, hk, rfl, hinum⟩ := hr
    simp only [wp_bind, wp_getInode]
    refine (giveBack_rest h.settled.nonneg h2 hvalid).imp fun _ s3 hput => hput.imp ?_
    rintro - s4 ⟨h4, hq4⟩
    obtain ⟨hdir, hbytes⟩ := h.quiet h4 (hq1.all.trans (hq2.trans hq4.all))
    refine ⟨hdir, by rw [hbytes, dirBytes_eq hm], ?_⟩
    rw [hk]
    exact ⟨k, by rw [hinum], getElem?_of_lookup hk⟩

theorem clearOp_behaves {name : List Byte} (h : IsDir dp s) (hok : s.Admits dp (.clear name)) :
    Wp (dirOp dp (.clear name)) s (fun r s' => IsDir dp s' ∧
      Behaves (s.dirBytes dp) (s'.dirBytes dp) (.clear name) r) fun _ => False := by
  obtain ⟨m, hm, ht, hw⟩ := h.node
  simp only [State.Admits, dirBytes_eq hm] at hok
  simp only [Behaves, dirBytes_eq hm, dirMap_cname]
  rw [dirOp, wp_bind]
  refine (dirlookup_dir h hm ht hw.size hok).imp ?_
  rintro - s1 ⟨hq1, h1, hm1, hlook⟩
  rw [wp_bind]
  refine hlook.imp ?_
  rintro (_ | ⟨b, off⟩) s2 ⟨hq2, hr⟩
  · obtain ⟨hnone, -, rfl⟩ := hr
    refine (iunlock_rest h1 List.not_mem_nil).next ?_
    rintro - s3 ⟨h3, hq3⟩
    obtain ⟨hdir, hbytes⟩ := h.quiet h3 (hq1.all.trans hq3.all)
    refine ⟨hdir, ?_⟩
    rw [hnone]
    exact ⟨rfl, by rw [hbytes, dirBytes_eq hm]⟩
  · obtain ⟨h2, hvalid, k, hk, rfl, hinum⟩ := hr
    have hlt : k < entries m.bytes := List.mem_range.mp (List.mem_of_find?_eq_some hk)
    have hdp : (s2.inode dp).inum = (s1.inode dp).inum := hq2.inum dp h.ref
    have hm2 : s2.nodes (s2.inode dp).inum = some m := by rw [hq2.nodes, hdp, hm1]
    refine (clearEntry_rest h2 List.mem_cons_self hm2 ht hlt).next ?_
    rintro - s3 ⟨h3, hsame, hk3⟩
    simp only [wp_bind]
    refine (giveBack_rest h.settled.nonneg h3 (by rwa [hsame])).imp fun _ s4 hput => hput.imp ?_
    rintro - s5 ⟨h5, hq5⟩
    obtain ⟨hw', hmap⟩ := hw.clear hk
    have hm5 : s5.nodes (s5.inode dp).inum = some { m with
        bytes := splice m.bytes (List.replicate deSize 0#8) (deSize * k) } := by
      rw [hq5.nodes, (hk3.disk h2.disk).2, hq5.inum dp Int.one_pos, hk3.inum dp Int.one_pos,
        update_self]
    refine ⟨h5.isDir h.ref hm5 ht hw', ?_⟩
    rw [hk]
    exact ⟨rfl, by rw [dirBytes_eq hm5]; exact hmap⟩

/-- **One operation** on a directory in use returns, and does what it does on the map. -/
theorem dirOp_behaves {op : DirOp} (h : IsDir dp s) (hok : s.Admits dp op) :
    Wp (dirOp dp op) s (fun r s' => IsDir dp s' ∧
      Behaves (s.dirBytes dp) (s'.dirBytes dp) op r) fun _ => False := by
  cases op with
  | link name inum => exact linkOp_behaves h hok
  | lookup name => exact lookupOp_behaves h hok
  | clear name => exact clearOp_behaves h hok

end Ops

/-! ## Sequences of operations -/

/-- An operation on the state that the ones before left; with what it returns. -/
def dirStep (dp : Fin ninode) (x : State × Option DirRet) (op : DirOp) :
    Except Halt (State × Option DirRet) :=
  match dirOp dp op x.1 with
  | .error e => .error e
  | .ok (r, s) => .ok (s, some r)

/-- A step of the sequence returned, and changed the directory, as on a finite map. -/
def Answers (dp : Fin ninode) (x : State × Option DirRet) (op : DirOp)
    (y : State × Option DirRet) : Prop :=
  ∃ r, y.2 = some r ∧ Behaves (x.1.dirBytes dp) (y.1.dirBytes dp) op r

theorem dirStep_answers {dp : Fin ninode} {x : State × Option DirRet} {op : DirOp}
    (h : IsDir dp x.1) (hok : x.1.Admits dp op) :
    ∃ y, dirStep dp x op = .ok y ∧ IsDir dp y.1 ∧ Answers dp x op y := by
  obtain ⟨r, s', hrun, hdir, hb⟩ := (dirOp_behaves h hok).returns
  exact ⟨(s', some r), by rw [dirStep, hrun], hdir, r, rfl, hb⟩

/-- **Directories are finite maps**: every sequence of operations on a directory, each of them
admitted in the state it is made in, returns; each returns what it returns on a finite map; in the
end the directory stands for the map that the operations make of the one before, every name has one
entry, and the size is a multiple of the size of an entry. -/
theorem directory_is_finite_map (dp : Fin ninode) (s : State) (ops : List DirOp) (h : IsDir dp s)
    (hg : Guarded (dirStep dp) (fun x op => x.1.Admits dp op) (s, none) ops) :
    Along (dirStep dp) (Answers dp) (s, none) ops ∧
      ∃ t, run (dirStep dp) (s, none) ops = .ok t ∧ IsDir dp t.1 ∧
        dirMap (t.1.dirBytes dp) = ops.foldl mapStep (dirMap (s.dirBytes dp)) := by
  have hstep : ∀ (x : State × Option DirRet) op y, IsDir dp x.1 → x.1.Admits dp op →
      dirStep dp x op = .ok y → IsDir dp y.1 ∧ Answers dp x op y := by
    intro x op y hx hok hy
    obtain ⟨y', hy', hdir, hans⟩ := dirStep_answers hx hok
    rw [hy] at hy'
    cases hy'
    exact ⟨hdir, hans⟩
  constructor
  · have hinv : Guarded (dirStep dp) (fun x op => IsDir dp x.1 ∧ x.1.Admits dp op) (s, none) ops :=
      guarded_of_invariant (fun x => IsDir dp x.1)
        (fun x op y hx hok hy => (hstep x op y hx hok hy).1) (fun x op hx hok => ⟨hx, hok⟩) h hg
    exact along_of_guarded (fun x op y hok hy => (hstep x op y hok.1 hok.2 hy).2) hinv
  · refine run_refines (fun x D => IsDir dp x.1 ∧ dirMap (x.1.dirBytes dp) = D)
      (fun x D op hx hok => ?_) ⟨h, rfl⟩ hg
    obtain ⟨y, hy, hdir, r, -, hb⟩ := dirStep_answers hx.1 hok
    exact ⟨y, hy, hdir, by rw [hb.map_eq, hx.2]⟩

/-! ## The root directory -/

/-- The system after `userinit`, with only the root directory, which is in the first slot. -/
def emptyBoot : State := .boot smallSb emptyVol emptyDinode

theorem emptyBoot_settled : Settled emptyBoot := by
  have hslot : ∀ b, 0 ≤ (emptyBoot.inode b).ref ∧ (emptyBoot.inode b).locked = false := by
    intro b
    by_cases hb : b = 0
    · subst hb
      exact ⟨by decide, rfl⟩
    · rw [emptyBoot, boot_inode_of_ne hb]
      exact ⟨by decide, rfl⟩
  exact ⟨boot_disk empty_own empty_covers, fun b => (hslot b).1, fun b => (hslot b).2⟩

theorem emptyBoot_isDir : IsDir 0 emptyBoot := by
  refine ⟨emptyBoot_settled, by decide, _, nodes_eq_some rfl, rfl, ?_, ?_⟩
  · rw [length_bytes]
    decide +kernel
  · unfold UniqueKeys
    decide +kernel

/-- Linking `.` in the root directory hangs; the system call does so too. -/
theorem dirlink_dot_hangs :
    IsDir 0 emptyBoot ∧ dirMap (emptyBoot.dirBytes 0) (cname dot) = some rootino ∧
      run (dirStep 0) (emptyBoot, none) [.link dot 2] = .error .deadlock ∧
      run step emptyBoot [(initproc, .open (some [97#8]) 0x200#32),
        (initproc, .link (some [97#8]) (some [slash, 46#8]))] = .error .deadlock :=
  ⟨emptyBoot_isDir, by decide +kernel, run_error_of_eval _ _ _ _ (by decide +kernel),
    run_error_of_eval _ _ _ _ (by decide +kernel)⟩

instance (s : State) (i : Nat) : Decidable (s.Cacheable i) :=
  inferInstanceAs (Decidable ((∃ b, 0 < (s.inode b).ref ∧ (s.inode b).inum = i) ∨
    ∃ b, (s.inode b).ref = 0))

instance (s : State) (i e : Nat) : Decidable (s.enough i e) :=
  inferInstanceAs (Decidable (_ ≤ _))

instance State.decidableAdmits (s : State) (dp : Fin ninode) :
    ∀ op, Decidable (s.Admits dp op)
  | .link name inum => inferInstanceAs (Decidable (0 < inum ∧ inum < 65536 ∧
      (∀ i ∈ dirMap (s.dirBytes dp) (cname name), i ≠ (s.inode dp).inum ∧ s.Cacheable i) ∧
      (dirMap (s.dirBytes dp) (cname name) = none → _ ≤ maxfile * bsize ∧ s.enough _ _)))
  | .lookup name => inferInstanceAs (Decidable (∀ i ∈ dirMap _ (cname name), s.Cacheable i))
  | .clear name => inferInstanceAs (Decidable (∀ i ∈ dirMap _ (cname name), s.Cacheable i))

/-- A name is linked, not linked again, found, cleared and no longer found. -/
theorem directory_is_finite_map_root :
    Along (dirStep 0) (Answers 0) (emptyBoot, none) [.link [97#8] 2, .link [97#8] 3,
        .lookup [97#8], .clear [97#8], .lookup [97#8]] ∧
      ∃ t, run (dirStep 0) (emptyBoot, none) [.link [97#8] 2, .link [97#8] 3, .lookup [97#8],
          .clear [97#8], .lookup [97#8]] = .ok t ∧ IsDir 0 t.1 ∧
        dirMap (t.1.dirBytes 0) = [.link [97#8] 2, .link [97#8] 3, .lookup [97#8],
          .clear [97#8], .lookup [97#8]].foldl mapStep (dirMap (emptyBoot.dirBytes 0)) :=
  directory_is_finite_map 0 emptyBoot _ emptyBoot_isDir (by decide +kernel)

end Xv6Mmap.Fs
