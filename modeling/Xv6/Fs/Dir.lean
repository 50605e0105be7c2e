import Xv6.Fs.Bytes
import Xv6.Fs.Rule

/-!
# Rules for directories

The contents of a directory are its entries, 16 bytes each, and the functions that
read and write them do what their names say: `dirlookup` finds the first entry with
a name (`Xv6.Fs.wp_dirlookup`), and `dirlink` adds one at the first place that is
free (`Xv6.Fs.wp_dirlink`).
-/

namespace Xv6.Fs

open Lib Function View UInt32

variable {Pid : Type} {k n : ℕ} {size : UInt32}

/-! ### Entries -/

/-- The entry `k` of a directory with contents `f`. -/
def entryAt (f : ℕ → UInt8) (k : ℕ) : Str := bytes f (16 * k) 16

/-- The inode number in an entry. -/
def entInum (f : ℕ → UInt8) (k : ℕ) : UInt32 := deInum (entryAt f k)

/-- The name in an entry. -/
def entName (f : ℕ → UInt8) (k : ℕ) : Str := deName (entryAt f k)

/-- Entry `k` is in use for a name. -/
def Matches (f : ℕ → UInt8) (name : Str) (k : ℕ) : Prop :=
  entInum f k ≠ 0 ∧ SameName name (entName f k)

instance (f : ℕ → UInt8) (name : Str) : DecidablePred (Matches f name) := fun _ =>
  inferInstanceAs (Decidable (_ ∧ _))

/-- The contents with entry `k` overwritten. -/
def putEntry (f : ℕ → UInt8) (k : ℕ) (de : Str) : ℕ → UInt8 := overwrite f (16 * k) de

/-- The byte offset of an entry. -/
def offOf (k : ℕ) : UInt32 := UInt32.ofNat (16 * k)

/-- The most entries of a directory. -/
def MAXENT : ℕ := MAXFILE * BSIZE / 16

theorem getD_bytes {f : ℕ → UInt8} {off : ℕ} (h : k < n) :
    (bytes f off n).getD k 0 = f (off + k) := by
  simp [bytes, List.getD, List.getElem?_range h]

/-- An entry that has been written reads back. -/
theorem entryAt_putEntry (f : ℕ → UInt8) (k : ℕ) {de : Str} (h : de.length = 16) :
    entryAt (putEntry f k de) k = de := by
  refine List.ext_getElem (by rw [entryAt, length_bytes, h]) fun j h1 h2 => ?_
  simp only [entryAt, bytes, putEntry, overwrite, List.getElem_map, List.getElem_range]
  rw [if_pos (by omega), Nat.add_sub_cancel_left, List.getD, List.getElem?_eq_getElem h2]
  rfl

/-- The other entries stay as they are. -/
theorem entryAt_putEntry_of_ne (f : ℕ → UInt8) {j : ℕ} {de : Str} (h : de.length = 16)
    (hj : j ≠ k) : entryAt (putEntry f k de) j = entryAt f j := by
  unfold entryAt bytes
  refine List.map_congr_left fun x hx => ?_
  have hx := List.mem_range.mp hx
  simp only [putEntry, overwrite]
  rw [if_neg (by omega)]

theorem offOf_toNat (h : k ≤ MAXENT) : (offOf k).toNat = 16 * k := by
  have : MAXENT = 4480 := rfl
  rw [offOf, toNat_ofNat']
  omega

theorem offOf_succ (k : ℕ) : offOf k + DESIZE = offOf (k + 1) := by
  rw [offOf, offOf, Nat.mul_succ, UInt32.ofNat_add]
  rfl

/-- `readi` reads a whole entry below the size of a directory. -/
theorem readiLen_entry (hsize : size.toNat = 16 * n) (hn : n ≤ MAXENT) (hk : k < n) :
    readiLen size (offOf k) DESIZE = some DESIZE := by
  have h1 := offOf_toNat (le_of_lt (lt_of_lt_of_le hk hn))
  have h2 := offOf_toNat (k := k + 1) (by omega)
  rw [readiLen, offOf_succ, if_neg, if_neg]
  · rw [lt_iff_toNat_lt]
    omega
  · rw [lt_iff_toNat_lt, lt_iff_toNat_lt]
    omega

/-- An entry can be written below the most entries. -/
theorem writeiOk_entry (hsize : size.toNat = 16 * n) (hk : k ≤ n) (hmax : k < MAXENT) :
    writeiOk size (offOf k) DESIZE = true := by
  have h0 : MAXENT = 4480 := rfl
  have h1 := offOf_toNat (le_of_lt hmax)
  have h2 := offOf_toNat (k := k + 1) hmax
  have h3 : MAXFILE * BSIZE = 71680 := rfl
  rw [writeiOk, offOf_succ, decide_eq_true_iff, lt_iff_toNat_lt, lt_iff_toNat_lt]
  omega

/-- No entry can be added to a full directory. -/
theorem not_writeiOk_full : writeiOk size (offOf MAXENT) DESIZE = false := by
  have h : (offOf MAXENT + DESIZE).toNat = 71696 := rfl
  have h3 : MAXFILE * BSIZE = 71680 := rfl
  rw [writeiOk, h, h3]
  simp

/-- The number of rounds of a loop over a directory. -/
theorem nentries_eq (hsize : size.toNat = 16 * n) : nentries size = n := by
  rw [nentries]
  omega

/-- Inode `t` is a directory with `n` entries. -/
structure IsDir (a : View Pid) (t : UInt32) (n : ℕ) : Prop where
  type : (a.disk t).type = T_DIR
  size : (a.disk t).size.toNat = 16 * n
  le : n ≤ MAXENT

/-! ### Rules -/

section Rules

variable [DecidableEq Pid] {K : View Pid → Op Pid → Prop} {bad : String → Prop} {W : Prop} {a : View Pid}
  {dp : Slot} {e : Entry Pid} {p : Pid} {n k : ℕ} {t : UInt32} {de name : Str}

theorem wp_readi {i : Slot} {Q : Option Str → View Pid → Prop} (h : a.inode i = some e)
    (hv : e.valid = true) (ht : (a.disk e.inum).type ≠ 0) (hdev : (a.disk e.inum).type ≠ T_DEV)
    {off m : UInt32} (hQ : Q ((readiLen (a.disk e.inum).size off m).map fun l =>
      bytes (a.data e.inum) off.toNat l.toNat) a) :
    (logicOf K bad W).wp (readi p i off m) Q a := by
  unfold readi
  refine .bind (wp_fields h hv ?_)
  rw [if_neg hdev]
  exact wp_op (o := .readi i off m) ⟨e, h, hv, ht, hdev⟩ (use_some h _) fun _ => hQ

theorem wp_writei {i : Slot} {Q : Option UInt32 → View Pid → Prop} (h : a.inode i = some e)
    (hv : e.valid = true) (ht : (a.disk e.inum).type ≠ 0) (hdev : (a.disk e.inum).type ≠ T_DEV)
    {off : UInt32} {src : Str} (hQ : K a (.writei i off src) →
      Q (a.writei e.inum off src).1 (a.writei e.inum off src).2) :
    (logicOf K bad W).wp (writei p i off src) Q a := by
  unfold writei
  refine .bind (wp_fields h hv ?_)
  rw [if_neg hdev]
  exact wp_op (o := .writei i off src) ⟨e, h, hv, ht, hdev⟩ (use_some h _) hQ

omit [DecidableEq Pid] in
theorem IsDir.type_ne (hdir : IsDir a e.inum n) :
    (a.disk e.inum).type ≠ 0 ∧ (a.disk e.inum).type ≠ T_DEV := by
  rw [hdir.type]
  decide

/-- Reading an entry of a directory. -/
theorem wp_readEntry {Q : Str → View Pid → Prop} (h : a.inode dp = some e) (hv : e.valid = true)
    (hdir : IsDir a e.inum n) (hk : k < n) {msg : String} (hQ : Q (entryAt (a.data e.inum) k) a) :
    (logicOf K bad W).wp (readEntry p dp (offOf k) msg) Q a := by
  unfold readEntry
  refine .bind (wp_readi h hv hdir.type_ne.1 hdir.type_ne.2 ?_)
  rw [readiLen_entry hdir.size hdir.le hk, offOf_toNat (le_of_lt (lt_of_lt_of_le hk hdir.le))]
  change (logicOf K bad W).wp (if (bytes _ _ _).length = _ then _ else _) _ _
  rwa [length_bytes, if_pos rfl]

/-- `iget`. -/
theorem wp_iget {Q : Slot → View Pid → Prop} (ht : t < a.ninodes)
    (href : ∀ i e, a.inode i = some e → 1 ≤ e.ref)
    (hbad : bad "iget: no inodes" → ∃ i, a.CanGrab i t)
    (hQ : ∀ i, a.CanGrab i t → Q i (a.grab i t)) :
    (logicOf K bad W).wp (Op.iget ROOTDEV t).perform Q a := by
  refine fun _ => ⟨⟨rfl, ht⟩, ?_⟩
  change (logicOf K bad W).Outcome _ (a.iget t)
  have hentry : ∀ {i}, (Entry.toInode (a.inode i)).Is ROOTDEV t ↔
      ∃ e, a.inode i = some e ∧ e.inum = t := by
    intro i
    cases he : a.inode i with
    | none => exact iff_of_false (fun hi => lt_irrefl 0 hi.1) fun ⟨e, h, _⟩ => nomatch h
    | some e =>
      refine ⟨fun hi => ⟨e, rfl, hi.2.2⟩, fun ⟨e', h, hinum⟩ => ?_⟩
      obtain rfl := Option.some.inj h
      exact ⟨href i e he, rfl, hinum⟩
  unfold View.iget
  split
  · rename_i i hi
    exact hQ i (.inl (hentry.mp (igetLoop_hit hi)))
  · rename_i i hi
    obtain ⟨h0, hall⟩ := igetLoop_empty (fun _ he => absurd he (by simp)) hi
    refine hQ i (.inr ⟨?_, fun j e he hinum => ?_⟩)
    · cases he : a.inode i with
      | none => rfl
      | some e =>
        rw [he] at h0
        have := href i e he
        exact absurd h0 (ne_of_gt this)
    · exact hall j (List.mem_finRange j) (hentry.mpr ⟨e, he, hinum⟩)
  · next hfull =>
    intro hb
    obtain ⟨i, hi⟩ := hbad hb
    obtain ⟨hno, huse⟩ := (igetLoop_full hfull).2 i (List.mem_finRange i)
    rcases hi with he | ⟨hnone, -⟩
    · exact hno (hentry.mpr he)
    · refine huse ?_
      rw [hnone]
      rfl

/-- The loop of `dirlookup`. -/
theorem wp_dirlookupLoop {Q : Option (Slot × UInt32) → View Pid → Prop} (h : a.inode dp = some e)
    (hv : e.valid = true) (hdir : IsDir a e.inum n) (href : ∀ i e, a.inode i = some e → 1 ≤ e.ref)
    (hbad : bad "iget: no inodes" → ∀ k, k < n → Matches (a.data e.inum) name k →
      (∀ j, j < k → ¬Matches (a.data e.inum) name j) → ∃ i, a.CanGrab i (entInum (a.data e.inum) k))
    (hrange : ∀ k, k < n → entInum (a.data e.inum) k < a.ninodes)
    (hnone : (∀ k, k < n → ¬Matches (a.data e.inum) name k) → Q none a)
    (hsome : ∀ k i, k < n → Matches (a.data e.inum) name k →
      (∀ j, j < k → ¬Matches (a.data e.inum) name j) → a.CanGrab i (entInum (a.data e.inum) k) →
      Q (some (i, offOf k)) (a.grab i (entInum (a.data e.inum) k))) :
    ∀ m k, k + m = n → (∀ j, j < k → ¬Matches (a.data e.inum) name j) →
      (logicOf K bad W).wp (dirlookupLoop p dp name m (offOf k)) Q a := by
  intro m
  induction m with
  | zero =>
    intro k hk hno
    exact hnone fun j hj => hno j (by omega)
  | succ m ih =>
    intro k hk hno
    rw [dirlookupLoop]
    refine .bind (wp_readEntry h hv hdir (by omega) ?_)
    by_cases hm : Matches (a.data e.inum) name k
    · rw [if_pos (by exact hm)]
      refine .bind (wp_ids h ?_)
      refine .bind (wp_iget (hrange k (by omega)) href (fun hb => hbad hb k (by omega) hm hno)
        fun i hi => ?_)
      exact hsome k i (by omega) hm hno hi
    · rw [if_neg (by exact hm), offOf_succ]
      refine ih (k + 1) (by omega) fun j hj => ?_
      rcases Nat.lt_succ_iff_lt_or_eq.mp hj with hj | rfl
      · exact hno j hj
      · exact hm

/-- **`dirlookup`** finds the first entry with the name. -/
theorem wp_dirlookup {Q : Option (Slot × UInt32) → View Pid → Prop} (h : a.inode dp = some e)
    (hv : e.valid = true) (hdir : IsDir a e.inum n) (href : ∀ i e, a.inode i = some e → 1 ≤ e.ref)
    (hbad : bad "iget: no inodes" → ∀ k, k < n → Matches (a.data e.inum) name k →
      (∀ j, j < k → ¬Matches (a.data e.inum) name j) → ∃ i, a.CanGrab i (entInum (a.data e.inum) k))
    (hrange : ∀ k, k < n → entInum (a.data e.inum) k < a.ninodes)
    (hnone : (∀ k, k < n → ¬Matches (a.data e.inum) name k) → Q none a)
    (hsome : ∀ k i, k < n → Matches (a.data e.inum) name k →
      (∀ j, j < k → ¬Matches (a.data e.inum) name j) → a.CanGrab i (entInum (a.data e.inum) k) →
      Q (some (i, offOf k)) (a.grab i (entInum (a.data e.inum) k))) :
    (logicOf K bad W).wp (dirlookup p dp name) Q a := by
  unfold dirlookup
  refine .bind (wp_fields h hv ?_)
  refine .bind (wp_panicIf (fun hn => absurd hdir.type hn) fun _ => ?_)
  rw [nentries_eq hdir.size]
  exact wp_dirlookupLoop h hv hdir href hbad hrange hnone hsome n 0 (Nat.zero_add n)
    fun j hj => absurd hj (Nat.not_lt_zero j)

/-- The loop of `dirlink` finds the first entry that is not in use. -/
theorem wp_emptyEntry {Q : UInt32 → View Pid → Prop} (h : a.inode dp = some e)
    (hv : e.valid = true) (hdir : IsDir a e.inum n)
    (hQ : ∀ k, k ≤ n → (∀ j, j < k → entInum (a.data e.inum) j ≠ 0) →
      (k < n → entInum (a.data e.inum) k = 0) → Q (offOf k) a) :
    ∀ m k, k + m = n → (∀ j, j < k → entInum (a.data e.inum) j ≠ 0) →
      (logicOf K bad W).wp (emptyEntry p dp m (offOf k)) Q a := by
  intro m
  induction m with
  | zero =>
    intro k hk hused
    exact hQ k (by omega) hused fun hlt => absurd hlt (by omega)
  | succ m ih =>
    intro k hk hused
    rw [emptyEntry]
    refine .bind (wp_readEntry h hv hdir (by omega) ?_)
    by_cases h0 : entInum (a.data e.inum) k = 0
    · rw [if_pos (by exact h0)]
      exact hQ k (by omega) hused fun _ => h0
    · rw [if_neg (by exact h0), offOf_succ]
      refine ih (k + 1) (by omega) fun j hj => ?_
      rcases Nat.lt_succ_iff_lt_or_eq.mp hj with hj | rfl
      · exact hused j hj
      · exact h0

/-- The size of a directory whose entry `k` has been written. -/
def entSize (size : UInt32) (k : ℕ) : UInt32 := if size < offOf (k + 1) then offOf (k + 1) else size

/-- Write the entry `k` of directory `t`. -/
def View.putEntry (a : View Pid) (t : UInt32) (k : ℕ) (de : Str) : View Pid :=
  (a.putData t (Fs.putEntry (a.data t) k de)).putDisk t
    ((a.disk t).setSize (entSize (a.disk t).size k))

section

omit [DecidableEq Pid]

/-- What `writei` does with an entry. -/
theorem writei_entry (hdir : IsDir a t n) (hd : a.dirty t = false) (hk : k ≤ n)
    (hmax : k < MAXENT) (hde : de.length = 16) :
    a.writei t (offOf k) de = (some DESIZE, a.putEntry t k de) := by
  have hlen : UInt32.ofNat de.length = DESIZE := by rw [hde]; rfl
  unfold View.writei
  simp only [hlen]
  rw [if_pos (writeiOk_entry hdir.size hk hmax), offOf_succ, offOf_toNat (le_of_lt hmax)]
  refine congrArg _ ?_
  unfold View.putEntry entSize
  by_cases hs : (a.disk t).size < offOf (k + 1)
  · rw [if_pos ⟨by decide, hs⟩, if_pos hs, mark_self (by exact hd)]
    rfl
  · rw [if_neg (fun hc => hs hc.2), if_neg hs]
    change a.putData t _ = { a.putData t _ with disk := update a.disk t (a.disk t) }
    rw [update_eq_self]
    rfl

theorem View.putEntry_data (a : View Pid) (t : UInt32) (k : ℕ) (de : Str) :
    (a.putEntry t k de).data t = Fs.putEntry (a.data t) k de := update_self ..

theorem View.putEntry_data_of_ne {u : UInt32} (h : u ≠ t) :
    (a.putEntry t k de).data u = a.data u := update_of_ne h ..

theorem View.putEntry_disk (a : View Pid) (t : UInt32) (k : ℕ) (de : Str) :
    (a.putEntry t k de).disk t = (a.disk t).setSize (entSize (a.disk t).size k) :=
  update_self ..

theorem View.putEntry_disk_of_ne {u : UInt32} (h : u ≠ t) :
    (a.putEntry t k de).disk u = a.disk u := update_of_ne h ..

theorem View.putEntry_type (a : View Pid) (t : UInt32) (k : ℕ) (de : Str) (u : UInt32) :
    ((a.putEntry t k de).disk u).type = (a.disk u).type := by
  by_cases h : u = t
  · subst h
    rw [putEntry_disk]
    rfl
  · rw [putEntry_disk_of_ne h]

/-- A directory to which an entry has been written. -/
theorem IsDir.putEntry (hdir : IsDir a t n) (hk : k ≤ n) (hmax : k < MAXENT) :
    IsDir (a.putEntry t k de) t (max n (k + 1)) := by
  have hle := hdir.le
  have hoff := offOf_toNat (k := k + 1) hmax
  have hsize : (entSize (a.disk t).size k).toNat = 16 * max n (k + 1) := by
    have h := hdir.size
    unfold entSize
    split
    · rename_i hlt
      rw [lt_iff_toNat_lt] at hlt
      omega
    · rename_i hlt
      rw [lt_iff_toNat_lt] at hlt
      omega
  refine ⟨?_, ?_, by omega⟩
  · rw [putEntry_disk]
    exact hdir.type
  · rwa [putEntry_disk]

end

/-- **`dirlink`** gives back the inode it finds under the name, or adds an entry at
the first place that is free. -/
theorem wp_dirlink {Q : Bool → View Pid → Prop} (h : a.inode dp = some e) (hv : e.valid = true)
    (hdir : IsDir a e.inum n) (href : ∀ i e, a.inode i = some e → 1 ≤ e.ref)
    (hd : a.dirty e.inum = false) (hbad : ¬bad "iget: no inodes") (hbad' : ¬bad "dirlink")
    (hrange : ∀ k, k < n → entInum (a.data e.inum) k < a.ninodes)
    (hsome : ∀ k i, k < n → Matches (a.data e.inum) name k →
      a.CanGrab i (entInum (a.data e.inum) k) →
      (logicOf K bad W).wp (iput p i) (fun _ b => Q false b) (a.grab i (entInum (a.data e.inum) k)))
    (hnone : ∀ k, (∀ j, j < n → ¬Matches (a.data e.inum) name j) → k ≤ n → k < MAXENT →
      (∀ j, j < k → entInum (a.data e.inum) j ≠ 0) → (k < n → entInum (a.data e.inum) k = 0) →
      K a (.writei dp (offOf k) (dirent t name)) → Q true (a.putEntry e.inum k (dirent t name))) :
    (logicOf K bad W).wp (dirlink p dp name t) Q a := by
  unfold dirlink
  refine .bind (wp_dirlookup h hv hdir href (fun hc => absurd hc hbad) hrange (fun hno => ?_)
    fun k i hk hm _ hi => .bind (hsome k i hk hm hi))
  refine .bind (wp_fields h hv ?_)
  rw [nentries_eq hdir.size]
  refine .bind (wp_emptyEntry h hv hdir (fun k hk hused hfree => ?_) n 0
    (Nat.zero_add n) fun j hj => absurd hj (Nat.not_lt_zero j))
  refine .bind (wp_writei h hv hdir.type_ne.1 hdir.type_ne.2 fun hK => ?_)
  by_cases hmax : k < MAXENT
  · rw [writei_entry hdir hd hk hmax (length_dirent t name)]
    refine .bind (wp_panicIf (fun hc => absurd rfl hc) fun _ => ?_)
    exact hnone k hno hk hmax hused hfree hK
  · -- the directory is full
    obtain rfl : k = MAXENT := le_antisymm (hk.trans hdir.le) (not_lt.mp hmax)
    have hfull : a.writei e.inum (offOf MAXENT) (dirent t name) = (none, a) := by
      unfold View.writei
      have hlen : UInt32.ofNat (dirent t name).length = DESIZE := by rw [length_dirent]; rfl
      simp only [hlen]
      rw [not_writeiOk_full]
      rfl
    rw [hfull]
    exact .bind (wp_panicIf (fun _ => hbad') fun hc => absurd (by simp) hc)

end Rules

end Xv6.Fs
