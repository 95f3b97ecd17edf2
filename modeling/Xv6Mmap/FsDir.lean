import Xv6Mmap.FsInode

/-!
# Directories and paths (`fs.c:513-657`)

A directory is a node whose bytes are entries of sixteen bytes. `lookup` is the entry that
`dirlookup` finds by name, `walk` the path from a node that `namex` follows; both are about the
nodes alone.

* `dirlookup_held`: `dirlookup` finds what `lookup` finds.
* `dirlink_held`: `dirlink` fails and changes nothing, or overwrites a free entry of the directory.
* `namex_held`: where `namex` returns an inode, it is the one at the end of `walk`. Directories that
  it leaves on the way may be freed, if they have no links.
-/

namespace Xv6Mmap.Fs

open Lib

/-! ## Entries -/

/-- Entry `k` of a directory. -/
def entry (bs : List Byte) (k : Nat) : List Byte := (bs.drop (deSize * k)).take deSize

/-- Entry `k` is in use and has the name. -/
def hit (bs name : List Byte) (k : Nat) : Bool :=
  decide (deInum (entry bs k) ≠ 0) && namecmp name (deName (entry bs k))

/-- The number of entries. -/
def entries (bs : List Byte) : Nat := bs.length / deSize

/-- The first entry with the name. -/
def lookup (bs name : List Byte) : Option Nat := (List.range (entries bs)).find? (hit bs name)

theorem mul_le_length {bs : List Byte} {k : Nat} (hk : k ≤ entries bs) :
    deSize * k ≤ bs.length := by
  unfold entries deSize at *
  omega

theorem entry_append_zero {de rest : List Byte} (h : de.length = deSize) :
    entry (de ++ rest) 0 = de := by
  rw [entry, Nat.mul_zero, List.drop_zero, ← h, List.take_left]

theorem entry_append_succ {de rest : List Byte} (h : de.length = deSize) (k : Nat) :
    entry (de ++ rest) (k + 1) = entry rest k := by
  rw [entry, entry, Nat.mul_succ, Nat.add_comm, ← h, ← List.drop_drop, List.drop_left]

theorem length_cname_le (name : List Byte) : (cname name).length ≤ dirsiz :=
  Nat.le_trans (List.takeWhile_prefix _).length_le (List.length_take_le ..)

theorem length_dirent (inum : Nat) (name : List Byte) : (dirent inum name).length = deSize := by
  have hle := length_cname_le name
  simp only [dirent, List.length_cons, List.length_append, List.length_replicate]
  unfold dirsiz deSize at *
  omega

variable {i : Nat}

theorem deInum_dirent (hi : i < 65536) (name : List Byte) :
    deInum (dirent i name) = i := by
  simp only [deInum, dirent, List.getD_cons_zero, List.getD_cons_succ, BitVec.toNat_ofNat]
  omega

variable {name : List Byte}

theorem cname_append_zeros (h : ∀ c ∈ name, c ≠ 0#8) (hlen : name.length ≤ dirsiz) (n : Nat) :
    cname (name ++ List.replicate n 0#8) = name := by
  have hzero : ((List.replicate n 0#8).take (dirsiz - name.length)).takeWhile (· ≠ 0#8) = [] := by
    rw [List.take_replicate]
    cases min (dirsiz - name.length) n with
    | zero => rfl
    | succ m => rfl
  rw [cname, List.take_append, List.take_of_length_le hlen,
    List.takeWhile_append_of_pos (by simpa using h), hzero, List.append_nil]

theorem cname_ne_zero : ∀ c ∈ cname name, c ≠ 0#8 := by
  intro c hc
  simpa using List.all_eq_true.mp List.all_takeWhile c hc

theorem cname_cname (name : List Byte) : cname (cname name) = cname name := by
  have := cname_append_zeros (@cname_ne_zero name) (length_cname_le name) 0
  rwa [List.replicate_zero, List.append_nil] at this

theorem deName_dirent (i : Nat) (name : List Byte) : deName (dirent i name) = cname name :=
  cname_append_zeros cname_ne_zero (length_cname_le name) _

/-- The entry is found under the names that are the same for `namecmp`. -/
theorem hit_of_entry {bs name' : List Byte} {k : Nat} (h : entry bs k = dirent i name')
    (hi : i < 65536) (hpos : i ≠ 0) : hit bs name k = (cname name == cname name') := by
  rw [hit, h, deInum_dirent hi, deName_dirent, namecmp, cname_cname, decide_eq_true hpos,
    Bool.true_and]

/-- The path from node `i`: its last node, or with `parent` the one before and the last name. -/
def walk (N : Nodes) (parent : Bool) : Nat → Nat → List Byte → Option (Nat × List Byte)
  | 0, _, _ => none
  | fuel + 1, i, path =>
    match skipelem path with
    | none => if parent then none else some (i, [])
    | some (name, path) =>
      match N i with
      | none => none
      | some m =>
        if m.type ≠ .dir then none
        else if parent ∧ path = [] then some (i, name)
        else
          match lookup m.bytes name with
          | none => none
          | some k => walk N parent fuel (deInum (entry m.bytes k)) path

/-- A path through what is left after nodes were freed was there before. -/
theorem walk_of_reaps {K : Set Nat} {N N' : Nodes} (h : Reaps K N N') {parent : Bool} {fuel : Nat}
    {path : List Byte} {r : Nat × List Byte} (hw : walk N' parent fuel i path = some r) :
    walk N parent fuel i path = some r := by
  induction fuel generalizing i path with
  | zero => cases hw
  | succ fuel ih =>
    rw [walk] at hw ⊢
    cases hs : skipelem path with
    | none => simpa only [hs] using hw
    | some e =>
      simp only [hs] at hw ⊢
      cases hn : N' i with
      | none => simp [hn] at hw
      | some m =>
        have hN : N i = some m := by
          rcases h i with he | ⟨he, -⟩
          · rw [← he, hn]
          · rw [hn] at he
            cases he
        simp only [hn, hN] at hw ⊢
        by_cases ht : m.type ≠ .dir
        · rw [if_pos ht] at hw
          cases hw
        rw [if_neg ht] at hw ⊢
        by_cases hp : parent ∧ e.2 = []
        · rwa [if_pos hp] at hw ⊢
        rw [if_neg hp] at hw ⊢
        cases hl : lookup m.bytes e.1 with
        | none => simp [hl] at hw
        | some k =>
          simp only [hl] at hw
          exact ih hw

theorem walk_update_nlink {N : Nodes} {n : Node} (hn : N i = some n) (x : Int) (parent : Bool)
    (fuel j : Nat) (path : List Byte) :
    walk (Function.update N i (some { n with nlink := x })) parent fuel j path
      = walk N parent fuel j path := by
  induction fuel generalizing j path with
  | zero => rfl
  | succ fuel ih =>
    simp only [walk, ih]
    by_cases hj : j = i
    · subst hj
      simp only [Function.update_self, hn]
    · simp only [Function.update_of_ne hj]

section Specs

variable {G : Fin ninode → Int} {L : List (Fin ninode)} {s : State} {a : Fin ninode}

theorem Held.node (h : Held G L s) (ha : a ∈ L) (hd : Disk s) :
    ∃ m, s.nodes (s.inode a).inum = some m ∧ (s.inode a).copy.type = some m.type ∧
      (s.inode a).copy.size = m.bytes.length ∧ (s.inode a).copy.nlink = m.nlink := by
  obtain ⟨-, hv, hpos⟩ := h.lock a ha
  obtain ⟨hcopy, hused⟩ := hd.cached a (by rwa [h.ref a]) hv
  obtain ⟨type, ht⟩ := Option.ne_none_iff_exists'.mp hused
  rw [hcopy]
  exact ⟨_, nodes_eq_some ht, ht, length_bytes.symm, rfl⟩

theorem readDirent_held (h : Held G L s) (ha : a ∈ L) (F : Fin ninode → Int) (k : Nat)
    (msg : String) :
    Wp (readDirent a (deSize * k) msg) s
      (fun de s' => Held G L s' ∧ Keeps F Eq s s' ∧
        (Disk s → s' = s ∧ ∀ m, s.nodes (s.inode a).inum = some m → m.type ≠ .dev →
          k < entries m.bytes ∧ de = entry m.bytes k)) := by
  unfold readDirent
  refine (readi_held h ha F (deSize * k) deSize default).bind ?_ fun _ _ => trivial
  rintro ⟨r, de⟩ s' ⟨h', hk, hr⟩
  simp only
  split
  case isTrue => trivial
  case isFalse hne =>
    refine ⟨h', hk, fun hd => ⟨(hr hd).1, fun m hm ht => ?_⟩⟩
    have hread := (hr hd).2 m hm ht
    have hr16 : r = (deSize : Nat) := by simpa using hne
    unfold Node.read at hread
    split at hread
    case isTrue =>
      rw [Prod.ext_iff] at hread
      have : (deSize : Int) = -1 := hr16.symm.trans hread.1
      cases this
    case isFalse =>
      obtain ⟨hlen, hde⟩ := Prod.ext_iff.mp hread
      have hlen : (deSize : Int) = (min deSize (m.bytes.length - deSize * k) : Nat) :=
        hr16.symm.trans hlen
      refine ⟨?_, hde⟩
      unfold entries deSize at *
      omega

/-- What `dirlookup` from entry `k` on returns. -/
def Looked (G : Fin ninode → Int) (L : List (Fin ninode)) (s : State) (a : Fin ninode)
    (name : List Byte) (k : Nat) (r : Option (Fin ninode × Nat)) (s' : State) : Prop :=
  Keeps G Eq s s' ∧
    match r with
    | none => Held G L s' ∧
      (Disk s → ∀ m, s.nodes (s.inode a).inum = some m → m.type = .dir → k ≤ entries m.bytes →
        (List.range' k (entries m.bytes - k)).find? (hit m.bytes name) = none ∧
          m.bytes.length ≤ deSize * entries m.bytes)
    | some (b, off) => Held (G + one b) L s' ∧
      (Disk s → ∀ m, s.nodes (s.inode a).inum = some m → m.type = .dir →
        ∃ j, (List.range' k (entries m.bytes - k)).find? (hit m.bytes name) = some j ∧
          off = deSize * j ∧ (s'.inode b).inum = deInum (entry m.bytes j))

variable {s1 : State}

theorem Looked.next {name : List Byte} {k : Nat} {r : Option (Fin ninode × Nat)} {s' : State}
    (hk : Keeps G Eq s s1) (hs : Disk s → s1 = s ∧ ∀ m, s.nodes (s.inode a).inum = some m →
      m.type = .dir → k < entries m.bytes ∧ hit m.bytes name k = false)
    (h : Looked G L s1 a name (k + 1) r s') : Looked G L s a name k r s' := by
  have hrange : ∀ m : Node, k < entries m.bytes → hit m.bytes name k = false →
      (List.range' k (entries m.bytes - k)).find? (hit m.bytes name)
        = (List.range' (k + 1) (entries m.bytes - (k + 1))).find? (hit m.bytes name) := by
    intro m hlt hmiss
    obtain ⟨n, hn⟩ : ∃ n, entries m.bytes - k = n + 1 := ⟨entries m.bytes - k - 1, by omega⟩
    rw [hn, List.range'_succ, List.find?_cons_of_neg (by simp [hmiss])]
    congr 2
    omega
  refine ⟨hk.eq_comp h.1, ?_⟩
  have h2 := h.2
  cases r with
  | none =>
    refine ⟨h2.1, fun hd m hm ht _ => ?_⟩
    obtain ⟨rfl, hmiss⟩ := hs hd
    obtain ⟨hlt, hmiss⟩ := hmiss m hm ht
    rw [hrange m hlt hmiss]
    exact h2.2 hd m hm ht hlt
  | some r =>
    refine ⟨h2.1, fun hd m hm ht => ?_⟩
    obtain ⟨rfl, hmiss⟩ := hs hd
    obtain ⟨hlt, hmiss⟩ := hmiss m hm ht
    rw [hrange m hlt hmiss]
    exact h2.2 hd m hm ht

theorem dirlookupLoop_held (h : Held G L s) (ha : a ∈ L) (name : List Byte) (fuel k : Nat) :
    Wp (dirlookupLoop a name fuel (deSize * k)) s (Looked G L s a name k) := by
  induction fuel generalizing s k with
  | zero => trivial
  | succ fuel ih =>
    rw [dirlookupLoop]
    simp only [wp_bind, wp_getInode]
    split
    case isTrue hlt =>
      refine (readDirent_held h ha G k _).next ?_
      rintro de s1 ⟨h1, hk1, hde⟩
      split
      case isTrue hhit =>
        refine (iget_spec h1 (deInum de)).next ?_
        rintro b s2 ⟨h2, hk2, hb⟩
        refine ⟨hk1.eq_comp hk2, h2, fun hd m hm ht => ⟨k, ?_, rfl, ?_⟩⟩
        · obtain ⟨hlt, rfl⟩ := (hde hd).2 m hm (by simp [ht])
          obtain ⟨n, hn⟩ : ∃ n, entries m.bytes - k = n + 1 := ⟨entries m.bytes - k - 1, by omega⟩
          rw [hn, List.range'_succ, List.find?_cons_of_pos (by simpa [hit] using hhit)]
        · obtain ⟨-, rfl⟩ := (hde hd).2 m hm (by simp [ht])
          exact hb
      case isFalse hmiss =>
        refine (ih h1 (k + 1)).imp fun r s' hr => ?_
        refine hr.next hk1 fun hd => ⟨(hde hd).1, fun m hm ht => ?_⟩
        obtain ⟨hlt, rfl⟩ := (hde hd).2 m hm (by simp [ht])
        exact ⟨hlt, by simpa [hit] using hmiss⟩
    case isFalse hge =>
      refine ⟨.refl G s, h, fun hd m hm ht hend => ?_⟩
      obtain ⟨m', hm', -, hsize, -⟩ := h.node ha hd
      rw [hm] at hm'
      cases hm'
      have hk : k = entries m.bytes := by
        unfold entries deSize at *
        omega
      subst hk
      rw [Nat.sub_self]
      exact ⟨rfl, by omega⟩

/-- What `dirlookup(dp, name, &off)` returns for the directory of slot `a`. -/
def Found (G : Fin ninode → Int) (L : List (Fin ninode)) (s : State) (a : Fin ninode)
    (name : List Byte) (r : Option (Fin ninode × Nat)) (s' : State) : Prop :=
  Keeps G Eq s s' ∧
    match r with
    | none => Held G L s' ∧
      (Disk s → ∃ m, s.nodes (s.inode a).inum = some m ∧ m.type = .dir ∧
        lookup m.bytes name = none ∧ m.bytes.length = deSize * entries m.bytes)
    | some (b, off) => Held (G + one b) L s' ∧
      (Disk s → ∃ m k, s.nodes (s.inode a).inum = some m ∧ m.type = .dir ∧
        lookup m.bytes name = some k ∧ off = deSize * k ∧
        (s'.inode b).inum = deInum (entry m.bytes k))

theorem dirlookup_held (h : Held G L s) (ha : a ∈ L) (name : List Byte) :
    Wp (dirlookup a name) s (Found G L s a name) := by
  unfold dirlookup
  simp only [wp_bind, wp_getInode]
  split
  case isTrue => trivial
  case isFalse ht =>
    have hnode : Disk s → ∃ m, s.nodes (s.inode a).inum = some m ∧ m.type = .dir := fun hd => by
      obtain ⟨m, hm, hmt, -⟩ := h.node ha hd
      refine ⟨m, hm, ?_⟩
      have := hmt.symm.trans (not_not.mp ht)
      exact Option.some.inj this
    refine (dirlookupLoop_held h ha name _ 0).imp ?_
    rintro r s' ⟨hk, hr⟩
    refine ⟨hk, ?_⟩
    cases r with
    | none =>
      refine ⟨hr.1, fun hd => ?_⟩
      obtain ⟨m, hm, ht⟩ := hnode hd
      obtain ⟨hnone, hlen⟩ := hr.2 hd m hm ht (Nat.zero_le _)
      refine ⟨m, hm, ht, ?_, ?_⟩
      · rwa [lookup, List.range_eq_range']
      · have := Nat.mul_div_le m.bytes.length deSize
        unfold entries at *
        omega
    | some r =>
      refine ⟨hr.1, fun hd => ?_⟩
      obtain ⟨m, hm, ht⟩ := hnode hd
      obtain ⟨j, hj, hoff, hinum⟩ := hr.2 hd m hm ht
      exact ⟨m, j, hm, ht, by rwa [lookup, List.range_eq_range'], hoff, hinum⟩

/-- The loop of `dirlink`: entry `j` is the first that is free, or the one after the last. -/
theorem freeDirent_held (h : Held G L s) (ha : a ∈ L) (F : Fin ninode → Int) (fuel k : Nat) :
    Wp (freeDirent a fuel (deSize * k)) s
      (fun off s' => Held G L s' ∧ Keeps F Eq s s' ∧
        (Disk s → s' = s ∧ ∀ m, s.nodes (s.inode a).inum = some m → m.type = .dir →
          k ≤ entries m.bytes → ∃ j, off = deSize * j ∧ j ≤ entries m.bytes ∧
            (j < entries m.bytes → deInum (entry m.bytes j) = 0))) := by
  induction fuel generalizing s k with
  | zero => trivial
  | succ fuel ih =>
    rw [freeDirent]
    simp only [wp_bind, wp_getInode]
    split
    case isTrue hlt =>
      refine (readDirent_held h ha F k _).next ?_
      rintro de s1 ⟨h1, hk1, hde⟩
      split
      case isTrue hfree =>
        refine ⟨h1, hk1, fun hd => ⟨(hde hd).1, fun m hm ht hle => ⟨k, rfl, hle, fun _ => ?_⟩⟩⟩
        obtain ⟨-, rfl⟩ := (hde hd).2 m hm (by simp [ht])
        exact hfree
      case isFalse =>
        refine (ih h1 (k + 1)).imp ?_
        rintro off s' ⟨h', hk', hoff⟩
        refine ⟨h', hk1.eq_comp hk', fun hd => ?_⟩
        obtain ⟨rfl, hent⟩ := hde hd
        refine ⟨(hoff hd).1, fun m hm ht _ => (hoff hd).2 m hm ht ?_⟩
        exact (hent m hm (by simp [ht])).1
    case isFalse hge =>
      refine ⟨h, .refl F s, fun hd => ⟨rfl, fun m hm ht hle => ⟨k, rfl, hle, fun hlt => ?_⟩⟩⟩
      obtain ⟨m', hm', -, hsize, -⟩ := h.node ha hd
      rw [hm] at hm'
      cases hm'
      unfold entries deSize at *
      omega

/-- Directory `i` gets an entry for `inum` where there was none with that name. -/
def Linked (i : Nat) (name : List Byte) (inum : Nat) (N N' : Nodes) : Prop :=
  ∃ m k, N i = some m ∧ m.type = .dir ∧ lookup m.bytes name = none ∧
    m.bytes.length = deSize * entries m.bytes ∧ k ≤ entries m.bytes ∧
    (k < entries m.bytes → deInum (entry m.bytes k) = 0) ∧
    N' = Function.update N i
      (some { m with bytes := splice m.bytes (dirent inum name) (deSize * k) })

theorem dirlink_held (h : Held G L s) (ha : a ∈ L) (name : List Byte) (inum : Nat) :
    Wp (dirlink a name inum) s
      (fun r s' => Held G L s' ∧
        Keeps G (if r then Linked (s.inode a).inum name inum else Reaps (s.named G)) s s') := by
  unfold dirlink
  refine (dirlookup_held h ha name).next ?_
  rintro (_ | ⟨b, off⟩) s1 ⟨hk1, h1, hnode⟩
  · simp only [wp_bind, wp_getInode]
    refine (freeDirent_held h1 ha G _ 0).imp ?_
    rintro off s2 ⟨h2, hk2, hoff⟩
    refine (writei_held h2 ha G off (dirent inum name)).mono ?_ fun _ _ => trivial
    rintro r s3 ⟨h3, hk3, -⟩
    split
    case isTrue => trivial
    case isFalse hr =>
      have hr : r = (deSize : Nat) := by simpa using hr
      have hinum : ∀ b, 0 < G b → (s2.inode b).inum = (s.inode b).inum := fun b hb =>
        (hk2.inum b hb).trans (hk1.inum b hb)
      refine ⟨h3, hk3.sb.trans (hk2.sb.trans hk1.sb), hk3.file.trans (hk2.file.trans hk1.file),
        hk3.proc.trans (hk2.proc.trans hk1.proc),
        fun b hb => (hk3.inum b hb).trans (hinum b hb), fun hd => ?_⟩
      obtain ⟨hd1, hn1⟩ := hk1.disk hd
      obtain ⟨rfl, hoff⟩ := hoff hd1
      obtain ⟨hd3, m, hm, hw⟩ := hk3.disk hd1
      obtain ⟨m', hm', ht, hnone, hlen⟩ := hnode hd
      rw [hinum a (h.lock a ha).2.2, ← hn1, hm'] at hm
      cases hm
      obtain ⟨j, rfl, hj, hfree⟩ := hoff m (by rw [hinum a (h.lock a ha).2.2, ← hn1]; exact hm') ht
        (Nat.zero_le _)
      refine ⟨hd3, ?_⟩
      rcases hw with ⟨-, hdev | ⟨hneg, -⟩⟩ | ⟨-, -, -, hnodes⟩
      · rw [ht] at hdev
        cases hdev
      · rw [hneg] at hr
        cases hr
      · refine ⟨m, j, hm', ht, hnone, hlen, hj, hfree, ?_⟩
        rw [hnodes, hinum a (h.lock a ha).2.2, hn1]
  · refine (iput_held h1 (pos_add_one h.nonneg b)).next ?_
    rintro _ s2 ⟨h2, hk2⟩
    rw [add_sub_cancel_right] at h2 hk2
    exact ⟨h2, hk1.frees.trans hk2⟩

/-! ## Paths -/

theorem one_le_of_pos (hnn : ∀ b, 0 ≤ G b) (ha : 0 < G a) (b : Fin ninode) : one a b ≤ G b := by
  by_cases hb : b = a
  · subst hb
    rw [one_self]
    omega
  · rw [one_of_ne hb]
    exact hnn b

/-- What the loop of `namex` from slot `a` on returns. -/
def Walked (G : Fin ninode → Int) (L : List (Fin ninode)) (s : State) (a : Fin ninode)
    (w : Option (Nat × List Byte)) (r : Option (Fin ninode × List Byte)) (s' : State) : Prop :=
  Frees (G - one a) s s' ∧
    match r with
    | none => Held (G - one a) L s'
    | some (b, name) => Held (G - one a + one b) L s' ∧
      (Disk s → w = some ((s'.inode b).inum, name))

theorem namexLoop_leave (hk : Keeps G Eq s s1) (h : Held G (a :: L) s1) (ha : a ∉ L)
    (w : Option (Nat × List Byte)) :
    Wp (do iunlockput a; return none) s1 (Walked G L s a w) := by
  refine (iunlockput_held h List.mem_cons_self _ (fun b hb => List.mem_cons_of_mem a hb) ha).next ?_
  rintro _ s2 ⟨h2, hk2⟩
  exact ⟨(hk.mono fun b hb => pos_of_sub hb).frees.trans hk2, h2⟩

theorem namexLoop_held (h : Held G L s) (hpos : 0 < G a) (parent : Bool) (fuel : Nat)
    (path : List Byte) :
    Wp (namexLoop parent fuel a path) s
      (Walked G L s a (walk s.nodes parent fuel (s.inode a).inum path)) := by
  induction fuel generalizing s G a path with
  | zero => trivial
  | succ fuel ih =>
    rw [namexLoop, walk]
    cases hs : skipelem path with
    | none =>
      simp only
      split
      case isTrue =>
        exact (iput_held h hpos).next fun _ s' hp => ⟨hp.2, hp.1⟩
      case isFalse =>
        refine ⟨(Keeps.refl _ s).frees, ?_, fun _ => rfl⟩
        rwa [sub_add_cancel]
    | some e =>
      obtain ⟨name, rest⟩ := e
      simp only [wp_bind]
      refine (ilock_held h G).imp ?_
      rintro _ s1 ⟨haL, h1, hk1⟩
      simp only [wp_getInode]
      split
      case isTrue => exact namexLoop_leave hk1 h1 haL _
      case isFalse ht =>
        have hnode : Disk s → ∃ m, s.nodes (s.inode a).inum = some m ∧ m.type = .dir := fun hd => by
          obtain ⟨hd1, he⟩ := hk1.disk hd
          obtain ⟨m, hm, hmt, -⟩ := h1.node List.mem_cons_self hd1
          rw [hk1.inum a hpos, ← he] at hm
          exact ⟨m, hm, Option.some.inj (hmt.symm.trans (not_not.mp ht))⟩
        split
        case isTrue hp =>
          refine (iunlock_held h1 G _ (fun b hb => List.mem_cons_of_mem a hb) haL).next ?_
          rintro _ s2 ⟨h2, hk2⟩
          have hk := hk1.eq_comp hk2
          refine ⟨(hk.mono fun b hb => pos_of_sub hb).frees, by rwa [sub_add_cancel], fun hd => ?_⟩
          obtain ⟨m, hm, hmt⟩ := hnode hd
          simp only [hm, hmt, ne_eq, not_true_eq_false, if_false, hk.inum a hpos]
        case isFalse hp =>
          refine (dirlookup_held h1 List.mem_cons_self name).next ?_
          rintro (_ | ⟨next, off⟩) s2 ⟨hk2, h2, hfound⟩
          · exact namexLoop_leave (hk1.eq_comp hk2) h2 haL _
          refine (iunlockput_held h2 List.mem_cons_self _ (fun b hb => List.mem_cons_of_mem a hb)
            haL).next ?_
          rintro _ s3 ⟨h3, hk3⟩
          have hnext : 0 < (G + one next - one a) next := by
            have hle : one a next ≤ G next := one_le_of_pos h.nonneg hpos next
            rw [Pi.sub_apply, Pi.add_apply, one_self]
            omega
          have hG : G + one next - one a - one next = G - one a := by
            rw [add_sub_right_comm, add_sub_cancel_right]
          have hfloor : ∀ b, 0 < (G - one a) b → 0 < (G + one next - one a) b := by
            intro b hb
            rw [← hG] at hb
            exact pos_of_sub hb
          have hk : Frees (G - one a) s s3 :=
            ((hk1.eq_comp hk2).mono fun b hb => pos_of_sub hb).frees.trans (hk3.mono hfloor)
          refine (ih h3 hnext rest).imp ?_
          rintro r s4 ⟨hk4, hr⟩
          rw [hG] at hk4
          refine ⟨hk.trans hk4, ?_⟩
          cases r with
          | none => rwa [hG] at hr
          | some r =>
            rw [hG] at hr
            refine ⟨hr.1, fun hd => ?_⟩
            obtain ⟨hd1, he1⟩ := hk1.disk hd
            obtain ⟨hd3, hreaps⟩ := hk.disk hd
            obtain ⟨m, k, hm, hmt, hl, -, hinum⟩ := hfound hd1
            rw [hk1.inum a hpos, ← he1] at hm
            have hw := hr.2 hd3
            rw [hk3.inum next hnext, hinum] at hw
            simp only [hm, hmt, ne_eq, not_true_eq_false, if_false, hl]
            exact walk_of_reaps hreaps hw

/-- The inode number where `namex` starts in process `p`. -/
def State.start (s : State) (p : Fin nproc) (path : List Byte) : Option Nat :=
  if path.head? = some slash then some rootino
  else (s.proc p).cwd.map fun c => (s.inode c).inum

variable {p : Fin nproc}

/-- A path starts where it started as long as the current directory is referred to. -/
theorem Keeps.start {P : Nodes → Nodes → Prop} (hk : Keeps G P s s1)
    (hcwd : ∀ c, (s.proc p).cwd = some c → 0 < G c) (path : List Byte) :
    s1.start p path = s.start p path := by
  unfold State.start
  rw [hk.proc]
  cases hc : (s.proc p).cwd with
  | none => rfl
  | some c => rw [Option.map_some, Option.map_some, hk.inum c (hcwd c hc)]

/-- What a path names for process `p`. -/
def State.resolve (s : State) (p : Fin nproc) (parent : Bool) (path : List Byte) :
    Option (Nat × List Byte) :=
  (s.start p path).bind fun i => walk s.nodes parent (path.length + 1) i path

/-- What `namex` returns, for a path that names `w`. -/
def Named (G : Fin ninode → Int) (L : List (Fin ninode)) (s : State)
    (w : Option (Nat × List Byte)) (r : Option (Fin ninode × List Byte)) (s' : State) : Prop :=
  Frees G s s' ∧
    match r with
    | none => Held G L s'
    | some (b, name) => Held (G + one b) L s' ∧ (Disk s → w = some ((s'.inode b).inum, name))

theorem namexStart_held (h : Held G L s) (hcwd : ∀ c, (s.proc p).cwd = some c → 0 < G c)
    (path : List Byte) :
    Wp (namexStart p path) s
      (fun b s' => Held (G + one b) L s' ∧ Keeps G Eq s s' ∧
        s.start p path = some (s'.inode b).inum) := by
  unfold namexStart State.start
  split
  case isTrue =>
    refine (iget_spec h rootino).imp ?_
    rintro b s' ⟨h', hk, hinum⟩
    exact ⟨h', hk, by rw [hinum]⟩
  case isFalse =>
    rw [wp_bind, wp_get]
    cases hc : (s.proc p).cwd with
    | none => trivial
    | some c =>
      refine (idup_spec h (hcwd c hc)).imp ?_
      rintro b s' ⟨rfl, h', hk⟩
      refine ⟨h', hk, ?_⟩
      rw [hk.inum b (hcwd b hc)]
      rfl

theorem namex_held (h : Held G L s) (hcwd : ∀ c, (s.proc p).cwd = some c → 0 < G c)
    (parent : Bool) (path : List Byte) :
    Wp (namex p parent path) s (Named G L s (s.resolve p parent path)) := by
  unfold namex
  refine (namexStart_held h hcwd path).next ?_
  rintro a s1 ⟨h1, hk1, hstart⟩
  refine (namexLoop_held h1 (pos_add_one h.nonneg a) parent _ path).imp ?_
  rintro r s2 ⟨hk2, hr⟩
  rw [add_sub_cancel_right] at hk2 hr
  refine ⟨hk1.frees.trans hk2, ?_⟩
  cases r with
  | none => exact hr
  | some r =>
    refine ⟨hr.1, fun hd => ?_⟩
    obtain ⟨hd1, he⟩ := hk1.disk hd
    rw [State.resolve, hstart, Option.bind_some, he]
    exact hr.2 hd1

theorem namei_held (h : Held G L s) (hcwd : ∀ c, (s.proc p).cwd = some c → 0 < G c)
    (path : List Byte) :
    Wp (namei p path) s
      (fun r s' => ∃ name, Named G L s (s.resolve p false path) (r.map fun b => (b, name)) s') := by
  unfold namei
  refine (namex_held h hcwd false path).next ?_
  rintro (_ | ⟨b, name⟩) s1 hr
  · exact ⟨[], hr⟩
  · exact ⟨name, hr⟩

end Specs

end Xv6Mmap.Fs
