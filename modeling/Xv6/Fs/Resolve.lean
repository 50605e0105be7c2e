import Mathlib.Data.List.DropRight
import Xv6.Fs.Boot

/-!
# The resolution of path names

`skipelem` cuts a path into its components (`Xv6.Fs.map_skipelems`), and `namex` looks them up
one after the other. So `namei` is a fold over the components, and `nameiparent` one over all but
the last of them (`Xv6.Fs.path_resolution`). Both give back all the references that they have taken
on the way, so that the only thing they change is the number of references to the inode that they
return.

There are two ways in which they may not return at all (`Xv6.Fs.View.StopsAt`). An inode that is not
in the inode cache needs an entry of it, while the directory it is in takes up another one. If none
is left, `iget` panics (`Xv6.Fs.namei_crowded`). And a directory may name an inode that is free, which
`ilock` does not accept.
-/

namespace Xv6.Fs

open Lib Function List View

variable {Pid : Type}

/-! ### The components of a path -/

/-- The longest parts of a path that have no slash, but for the empty ones. -/
def parts (path : Str) : List Str := (path.splitOnP (· == slash)).filter (· ≠ [])

/-- **The components of a path**: of each part the first `DIRSIZ` bytes count. -/
def components (path : Str) : List Str := (parts path).map (List.take DIRSIZ)

theorem parts_append (xs ys : Str) : parts (xs ++ slash :: ys) = parts xs ++ parts ys := by
  rw [parts, splitOnP_append_cons _ _ (by decide), filter_append]
  rfl

/-- Slashes at the beginning do not matter. -/
theorem parts_dropWhile (path : Str) : parts (path.dropWhile (· == slash)) = parts path := by
  induction path with
  | nil => rfl
  | cons c path ih =>
    rw [dropWhile_cons]
    split
    · next hc =>
      rw [ih, beq_iff_eq.mp hc]
      exact (parts_append [] path).symm
    · rfl

/-- A path that does not begin with a slash begins with a component. -/
theorem parts_eq_cons {c : UInt8} {s : Str} (hc : (c == slash) = false) :
    parts (c :: s) = (c :: s).takeWhile (· != slash) ::
      parts ((c :: s).dropWhile (· != slash)) := by
  have hne : (c :: s).takeWhile (· != slash) ≠ [] := by
    rw [takeWhile_cons_of_pos (by rw [bne, hc]; rfl)]
    exact cons_ne_nil _ _
  have hword : parts ((c :: s).takeWhile (· != slash)) = [(c :: s).takeWhile (· != slash)] := by
    rw [parts, splitOnP_eq_singleton fun x hx => ?_]
    · exact filter_cons_of_pos (decide_eq_true hne)
    · have := mem_takeWhile_imp hx
      rwa [bne, Bool.not_eq_true'] at this
  have happ := takeWhile_append_dropWhile (p := (· != slash)) (l := c :: s)
  have hhead := head?_dropWhile_not (· != slash) (c :: s)
  cases hd : (c :: s).dropWhile (· != slash) with
  | nil =>
    rw [hd, append_nil] at happ
    rw [happ] at hword ⊢
    exact hword
  | cons d r =>
    rw [hd] at happ hhead
    obtain rfl : d = slash := by simpa using hhead
    calc parts (c :: s) = parts ((c :: s).takeWhile (· != slash) ++ slash :: r) := by rw [happ]
      _ = (c :: s).takeWhile (· != slash) :: parts r := by rw [parts_append, hword]; rfl
      _ = _ := congrArg _ (parts_append [] r).symm

/-- A path without components. -/
theorem parts_dropWhile_eq_nil {path : Str} :
    parts path = [] ↔ path.dropWhile (· == slash) = [] := by
  rw [← parts_dropWhile]
  have hhead := head?_dropWhile_not (· == slash) path
  cases hd : path.dropWhile (· == slash) with
  | nil => exact iff_of_true rfl rfl
  | cons c s =>
    rw [hd] at hhead
    rw [parts_eq_cons hhead]
    exact iff_of_false (cons_ne_nil _ _) (cons_ne_nil _ _)

/-- **`skipelem`** takes the first component off a path. -/
theorem skipelem_spec (path : Str) : skipelem path = none ∧ parts path = [] ∨
    ∃ w rest, skipelem path = some (w.take DIRSIZ, rest) ∧ parts path = w :: parts rest ∧
      rest.length < path.length ∧ (rest = [] ↔ parts rest = []) := by
  have hhead := head?_dropWhile_not (· == slash) path
  have hle := (path.dropWhile_sublist (· == slash)).length_le
  unfold skipelem
  cases hd : path.dropWhile (· == slash) with
  | nil => exact .inl ⟨if_pos rfl, parts_dropWhile_eq_nil.mpr hd⟩
  | cons c s =>
    rw [hd] at hhead hle
    have hlt : ((c :: s).dropWhile (· != slash)).length < (c :: s).length := by
      rw [dropWhile_cons_of_pos (by rw [bne, show (c == slash) = false from hhead]; rfl)]
      exact Nat.lt_succ_of_le (s.dropWhile_sublist _).length_le
    refine .inr ⟨_, _, if_neg (cons_ne_nil _ _), ?_, ?_, ?_⟩
    · rw [← parts_dropWhile path, hd, parts_eq_cons hhead, parts_dropWhile]
    · exact ((dropWhile_sublist _).length_le.trans_lt hlt).trans_le hle
    · rw [parts_dropWhile_eq_nil, dropWhile_idempotent]

/-- What the loop of `namex` goes through, along the components of the path. -/
theorem skipelems_rec {M : List (Str × Str) → List Str → Prop} (hnil : M [] [])
    (hcons : ∀ name rest es names, (rest = [] ↔ names = []) → M es names →
      M ((name, rest) :: es) (name :: names)) {n : ℕ} : ∀ {path : Str}, path.length ≤ n →
    M (skipelems n path) (components path) := by
  induction n with
  | zero =>
    intro path hn
    obtain rfl := eq_nil_of_length_eq_zero (Nat.le_zero.mp hn)
    exact hnil
  | succ n ih =>
    intro path hn
    rw [components]
    rcases skipelem_spec path with ⟨hnone, hparts⟩ | ⟨w, rest, hsome, hparts, hlt, hrest⟩
    · simp only [skipelems, hnone, hparts]
      exact hnil
    · simp only [skipelems, hsome, hparts]
      exact hcons _ _ _ _ (hrest.trans map_eq_nil_iff.symm) (ih (by omega))

/-- **The loop of `namex` goes through the components**, and comes to an end. -/
theorem map_skipelems {n : ℕ} {path : Str} (h : path.length ≤ n) :
    (skipelems n path).map Prod.fst = components path :=
  skipelems_rec (M := fun es names => es.map Prod.fst = names) rfl
    (fun name _ _ _ _ ih => congrArg (name :: ·) ih) h

/-! ### Looking up the components -/

/-- The inode with a name in a directory. -/
def View.child (a : View Pid) (t : UInt32) (name : Str) : Option UInt32 :=
  if (a.disk t).type = T_DIR then
    (lookup (a.data t) (nentries (a.disk t).size) name).map (entInum (a.data t))
  else none

/-- **Looking names up one after the other**, from inode `t` on. -/
def View.resolve (a : View Pid) (t : UInt32) (names : List Str) : Option UInt32 :=
  names.foldlM a.child t

/-- The directory of the last of the names. -/
def View.parentOf (a : View Pid) (t : UInt32) (names : List Str) : Option UInt32 :=
  if names = [] then none
  else (a.resolve t names.dropLast).filter fun u => (a.disk u).type = T_DIR

section Walk

variable {a : View Pid} {n : ℕ}

theorem View.walk_cons (a : View Pid) (parent : Bool) (name path : Str) (es : List (Str × Str))
    (t : UInt32) (last : Str) : a.walk parent ((name, path) :: es) t last =
      if (a.disk t).type = T_DIR ∧ parent ∧ path = [] then some (t, name)
      else (a.child t name).bind fun u => a.walk parent es u name := by
  rw [View.walk, View.child]
  by_cases hdir : (a.disk t).type = T_DIR
  · rw [if_neg (not_not_intro hdir), if_pos hdir]
    by_cases hlast : parent ∧ path = []
    · rw [if_pos hlast, if_pos ⟨hdir, hlast⟩]
    · rw [if_neg hlast, if_neg fun hc => hlast hc.2]
      cases lookup (a.data t) (nentries (a.disk t).size) name <;> rfl
  · rw [if_pos hdir, if_neg fun hc => hdir hc.1, if_neg hdir]
    rfl

/-- The walk of `namei`. -/
theorem View.walk_eq_resolve {path : Str} (h : path.length ≤ n) : ∀ t last,
    (a.walk false (skipelems n path) t last).map Prod.fst = a.resolve t (components path) := by
  refine skipelems_rec (M := fun es names => ∀ t last, (a.walk false es t last).map Prod.fst =
    a.resolve t names) (fun _ _ => rfl) (fun name rest es names _ ih t last => ?_) h
  rw [walk_cons, if_neg fun hc => Bool.false_ne_true hc.2.1, View.resolve, foldlM_cons]
  cases a.child t name with
  | none => rfl
  | some u => exact ih u name

/-- The walk of `nameiparent`. -/
theorem View.walk_eq_parentOf {path : Str} (h : path.length ≤ n) : ∀ t last,
    a.walk true (skipelems n path) t last =
      (a.parentOf t (components path)).map (·, (components path).getLastD []) := by
  refine skipelems_rec (M := fun es names => ∀ t last, a.walk true es t last =
    (a.parentOf t names).map (·, names.getLastD [])) (fun _ _ => rfl)
    (fun name rest es names hrest ih t last => ?_) h
  simp only [walk_cons, hrest]
  cases names with
  | nil =>
    by_cases hdir : (a.disk t).type = T_DIR
    · simp [View.parentOf, View.resolve, hdir]
    · simp [View.parentOf, View.resolve, View.child, hdir]
  | cons x l =>
    rw [if_neg fun hc => cons_ne_nil x l hc.2.2, View.parentOf, View.resolve,
      dropLast_cons_cons, foldlM_cons]
    cases a.child t name with
    | none => rfl
    | some u => exact ih u name

end Walk

/-! ### `namei` and `nameiparent` -/

/-- **The result of a search** for the inode `o`: it is a null pointer, and nothing has changed, or
it is made of an entry of the cache for the inode, which has one more reference. -/
def View.Gives {α : Type} (a : View Pid) (o : Option UInt32) (out : Slot → α) (r : Option α)
    (b : View Pid) : Prop :=
  o = none ∧ r = none ∧ b = a ∨
    ∃ u j w, o = some u ∧ r = some (out j) ∧ a.Taken j u w ∧ b = a.refTo j u none w

variable [DecidableEq Pid]

/-- A function searches for the inode `o`, and returns it unless it stops the system. -/
def Finds {α : Type} (s : State Pid) (a : View Pid) (P : FsM Pid (Option α)) (o : Option UInt32)
    (out : Slot → α) (stops : String → Prop) : Prop :=
  (∀ msg, ¬stops msg) ∧ (∃ r t b, P.exec handle s = .ok (r, t) ∧ Rel t b ∧ a.Gives o out r b) ∨
    ∃ msg, stops msg ∧ P.exec handle s = .panic msg

section Find

variable {s : State Pid} {a : View Pid} {p : Pid} {t : UInt32} {path : Str}

/-- A program that need not wait ends in both kinds of file systems. -/
theorem Rel.exec_total {α : Type} {P : FsM Pid α} {Q : α → View Pid → Prop} {bad : String → Prop}
    (h : Rel s a) (hwp : (logicOf (fun _ _ => True) bad False).wp P Q a) :
    (∃ x t b, P.exec handle s = .ok (x, t) ∧ Rel t b ∧ Q x b) ∨
      ∃ msg, P.exec handle s = .panic msg ∧ ¬bad msg := by
  obtain ⟨hout, hneeded⟩ := Logic.sound hwp (Prog.meets_of_forall (fun _ _ => trivial) P a)
  have hm := simulates_view.exec (p := P) h hneeded
  change (logicOf _ bad False).Outcome _ (P.exec View.handle a) at hout
  cases hs : P.exec handle s with
  | ok x =>
    rw [hs] at hm
    obtain ⟨b, hb, hrel⟩ := hm
    rw [hb] at hout
    exact .inl ⟨x.1, x.2, b, rfl, hrel, hout⟩
  | panic msg =>
    rw [hs] at hm
    rw [hm.resolve_left id] at hout
    exact .inr ⟨msg, rfl, hout⟩
  | disabled =>
    rw [hs] at hm
    rw [show P.exec View.handle a = .disabled from hm] at hout
    exact hout.elim

theorem Rel.finds {α : Type} {P : FsM Pid (Option α)} {o : Option UInt32} {out : Slot → α}
    {stops : String → Prop} (h : Rel s a) (hwp : (logicOf (fun _ _ => True) (fun msg => ¬stops msg)
      False).wp P (fun r b => (∀ msg, ¬stops msg) ∧ a.Gives o out r b) a) :
    Finds s a P o out stops := by
  rcases h.exec_total hwp with ⟨r, t, b, hexec, hrel, hno, hgives⟩ | ⟨msg, hexec, hmsg⟩
  · exact .inl ⟨hno, r, t, b, hexec, hrel, hgives⟩
  · exact .inr ⟨msg, not_not.mp hmsg, hexec⟩

theorem Rel.finds_namei (h : Rel s a) (ha : Tidy a) (hp : (a.proc p).cwd ≠ none)
    (ht : a.start p path t) : Finds s a (namei p path) (a.resolve t (components path)) id
      (a.StopsAt p path false) := by
  have hwalk : (a.walk false (elems path) t []).map Prod.fst = a.resolve t (components path) :=
    walk_eq_resolve le_rfl t []
  refine h.finds (.bind (wp_namex ha (fun _ => not_not_intro) (.inr hp)
    (fun u hno hu hnone => ⟨hno, .inl ⟨?_, rfl, rfl⟩⟩)
    fun u j v w name hno hu hsome hj _ => ⟨hno, .inr ⟨v, j, w, ?_, rfl, hj, rfl⟩⟩))
  · rw [← hwalk, ht.unique hu]
    exact congrArg (Option.map Prod.fst) hnone
  · rw [← hwalk, ht.unique hu]
    exact congrArg (Option.map Prod.fst) hsome

theorem Rel.finds_nameiparent (h : Rel s a) (ha : Tidy a) (hp : (a.proc p).cwd ≠ none)
    (ht : a.start p path t) :
    Finds s a (nameiparent p path) (a.parentOf t (components path))
      (·, (components path).getLastD []) (a.StopsAt p path true) := by
  have hwalk : a.walk true (elems path) t [] = (a.parentOf t (components path)).map
      (·, (components path).getLastD []) := walk_eq_parentOf le_rfl t []
  refine h.finds (wp_namex ha (fun _ => not_not_intro) (.inr hp)
    (fun u hno hu hnone => ⟨hno, .inl ⟨?_, rfl, rfl⟩⟩)
    fun u j v w name hno hu hsome hj _ => ⟨hno, .inr ⟨v, j, w, ?_, ?_, hj, rfl⟩⟩)
  · rw [← ht.unique hu] at hnone
    exact Option.map_eq_none_iff.mp (hwalk.symm.trans hnone)
  · rw [← ht.unique hu] at hsome
    obtain ⟨x, hx, heq⟩ := Option.map_eq_some_iff.mp (hwalk.symm.trans hsome)
    rw [hx, (Prod.mk.inj heq).1]
  · rw [← ht.unique hu] at hsome
    obtain ⟨x, -, heq⟩ := Option.map_eq_some_iff.mp (hwalk.symm.trans hsome)
    rw [(Prod.mk.inj heq).2]

omit [DecidableEq Pid] in
/-- A path starts somewhere. -/
theorem Tidy.exists_start (ha : Tidy a) (hp : (a.proc p).cwd ≠ none) (path : Str) :
    ∃ t, a.start p path t := by
  unfold View.start
  split
  · exact ⟨ROOTINO, rfl⟩
  · obtain ⟨i, hi⟩ := Option.ne_none_iff_exists'.mp hp
    obtain ⟨e, he⟩ := ha.cwd p i hi
    exact ⟨e.inum, i, e, hi, he, rfl⟩

/-- **Path names.** `skipelem` goes through the components of a path and comes to an end. `namei`
returns the inode that looking up the components leads to, from the root directory or the working
directory on, and a null pointer if one of them is not there or is looked up in something that is
not a directory. `nameiparent` does so for all components but the last one, if what they lead to is
a directory, and returns the last component, too; and it returns a null pointer if there is none.
The inode has one more reference then, and nothing else has changed. Instead of this, both panic when
they come to an inode that is free, or to one for which there is no entry of the inode cache. -/
theorem path_resolution (h : Rel s a) (ha : Tidy a) (hp : (a.proc p).cwd ≠ none) (path : Str) :
    (∀ n, path.length ≤ n → (skipelems n path).map Prod.fst = components path) ∧
    ∃ t, a.start p path t ∧
      Finds s a (namei p path) (a.resolve t (components path)) id (a.StopsAt p path false) ∧
      Finds s a (nameiparent p path) (a.parentOf t (components path))
        (·, (components path).getLastD []) (a.StopsAt p path true) := by
  obtain ⟨t, ht⟩ := ha.exists_start hp path
  exact ⟨fun _ hn => map_skipelems hn, t, ht, h.finds_namei ha hp ht,
    h.finds_nameiparent ha hp ht⟩

end Find

/-! ### The inode cache in use -/

/-- A root directory and files. -/
def crowdedDisk (t : UInt32) : Fields :=
  if t = ROOTINO then ⟨T_DIR, 0, 0, 1, 48⟩
  else if t ≠ 0 ∧ t < 200 then ⟨T_FILE, 0, 0, 1, 0⟩
  else ⟨0, 0, 0, 0, 0⟩

/-- The contents of the root directory. -/
def crowdedData (k : ℕ) : UInt8 :=
  (dirent ROOTINO dot ++ dirent ROOTINO dotdot ++ dirent 100 [97]).getD k 0

/-- The inode of an entry of the cache. -/
def crowdedInum (i : Slot) : UInt32 := UInt32.ofNat (i.val + 1)

/-- The root directory and files of which the names are not known take up the first entries of the
inode cache. -/
def crowded (n : ℕ) : State ℕ := { bootState with
  disk := crowdedDisk
  data := fun t => if t = ROOTINO then crowdedData else fun _ => 0
  inode := fun i =>
    if i.val < n then ⟨ROOTDEV, crowdedInum i, 1, none, true, crowdedDisk (crowdedInum i)⟩
    else ⟨0, 0, 0, none, false, ⟨0, 0, 0, 0, 0⟩⟩ }

section Crowded

variable {n : ℕ} {i : Slot}

theorem crowded_inode (h : i.val < n) :
    (crowded n).view.inode i = some ⟨crowdedInum i, 1, none, true⟩ := by
  simp [State.view, crowded, h]

theorem crowded_inode_none (h : n ≤ i.val) : (crowded n).view.inode i = none := by
  simp [State.view, crowded, Nat.not_lt.mpr h]

theorem eq_of_crowded_inode {e : Entry ℕ} (h : (crowded n).view.inode i = some e) :
    i.val < n ∧ e = ⟨crowdedInum i, 1, none, true⟩ := by
  by_cases hi : i.val < n
  · exact ⟨hi, Option.some.inj (h.symm.trans (crowded_inode hi))⟩
  · rw [crowded_inode_none (Nat.not_lt.mp hi)] at h
    cases h

theorem crowdedDisk_ne {t : UInt32} (h : (crowdedDisk t).type ≠ 0) :
    (t ≠ 0 ∧ t < 200) ∧ (crowdedDisk t).nlink ≠ 0 := by
  unfold crowdedDisk at h ⊢
  by_cases hroot : t = ROOTINO
  · subst hroot
    decide
  · rw [if_neg hroot] at h ⊢
    by_cases hfile : t ≠ 0 ∧ t < 200
    · exact ⟨hfile, by rw [if_pos hfile]; decide⟩
    · rw [if_neg hfile] at h
      exact absurd rfl h

theorem eq_root_of_crowded {t : UInt32} (h : (crowdedDisk t).type = T_DIR) : t = ROOTINO := by
  by_contra hne
  rw [crowdedDisk, if_neg hne] at h
  split at h
  · exact absurd h (by decide)
  · exact absurd h (by decide)

theorem tidy_crowded (hn : 0 < n) : Tidy (crowded n).view := by
  have hinum : ∀ i, (crowdedDisk (crowdedInum i)).type ≠ 0 ∧
      ∀ j, crowdedInum i = crowdedInum j → i = j := by decide +kernel
  refine ⟨⟨⟨fun i e he => ?_, fun i j e e' he he' heq => ?_, fun _ => rfl⟩, fun t ht => ?_, ?_, ?_,
    fun t ht => (crowdedDisk_ne ht).1, fun p i hi => ?_⟩,
    fun t ht hn => absurd hn (crowdedDisk_ne ht).2⟩
  · obtain rfl := (eq_of_crowded_inode he).2
    exact ⟨le_rfl, rfl, rfl, (hinum i).1⟩
  · rw [(eq_of_crowded_inode he).2, (eq_of_crowded_inode he').2] at heq
    exact (hinum i).2 j heq
  · obtain rfl := eq_root_of_crowded ht
    have hdots : entInum crowdedData 0 = ROOTINO ∧ SameName (entName crowdedData 0) dot ∧
        SameName (entName crowdedData 1) dotdot ∧ entInum crowdedData 1 ≠ 0 ∧
        ∀ k, k < 3 → entInum crowdedData k < 200 := by decide
    exact ⟨3, ⟨rfl, rfl, by decide⟩, by decide, hdots.1, hdots.2.1, hdots.2.2.1, hdots.2.2.2.1,
      hdots.2.2.2.2⟩
  · exact (by decide : ROOTINO < 200)
  · exact (by decide : (200 : UInt32).toNat ≤ 65536)
  · obtain rfl : 0 = i := by
      change (if p = 0 then (⟨some 0, fun _ => none⟩ : Proc) else ⟨none, fun _ => none⟩).cwd = _ at hi
      split at hi
      · exact Option.some.inj hi
      · cases hi
    exact ⟨_, crowded_inode hn⟩

theorem sound_crowded : Sound (crowded n).view := by
  intro t m k hdir hk _
  obtain rfl := eq_root_of_crowded hdir.type
  obtain rfl : 3 = m := by
    have h48 : 48 = 16 * m := hdir.size
    omega
  have hall : ∀ k, k < 3 → (crowdedDisk (entInum crowdedData k)).type ≠ 0 := by decide
  exact hall k hk

theorem rel_crowded (hn : 0 < n) : Rel (crowded n) (crowded n).view := by
  refine ⟨fun i => ?_, (tidy_crowded hn).uniq, fun _ _ => rfl, (fun _ hc => by cases hc), rfl, rfl,
    rfl, rfl, rfl⟩
  by_cases hlt : i.val < n
  · rw [crowded_inode hlt]
    simp [Copies, crowded, hlt, State.view]
  · simp [Copies, crowded, hlt, State.view]

/-- The root directory is in the cache, and the file is not. -/
theorem grab_crowded (hn : 0 < n) : (crowded n).view.CanGrab 0 ROOTINO ∧
    ∀ j e, (crowded n).view.inode j = some e → e.inum ≠ 100 := by
  have hinum : ∀ i, crowdedInum i ≠ 100 := by decide +kernel
  refine ⟨.inl ⟨_, crowded_inode hn, by decide⟩, fun j e he => ?_⟩
  rw [(eq_of_crowded_inode he).2]
  exact hinum j

theorem elems_crowded : elems [slash, 97] = [([97], [])] := by decide

theorem lookup_crowded : lookup crowdedData (nentries 48) [97] = some 2 := by decide

/-- What stops a search for the file. -/
theorem stopsAt_crowded {msg : String} (hn : 0 < n)
    (h : (crowded n).view.StopsAt 0 [slash, 97] false msg) :
    msg = "iget: no inodes" ∧ (crowded n).view.Crowded ROOTINO 100 := by
  rcases h with ⟨⟨-, hno⟩, -⟩ | ⟨-, t, ht, hmsg⟩
  · exact absurd (grab_crowded hn).1 (hno 0)
  · obtain rfl : t = ROOTINO := ht
    rw [elems_crowded] at hmsg
    rcases hmsg with ⟨h0, -⟩ | ⟨-, -, k, hk, ⟨hfull, rfl⟩ | ⟨-, hc⟩⟩
    · exact absurd h0 (by decide : (crowdedDisk ROOTINO).type ≠ 0)
    · obtain rfl := Option.some.inj (lookup_crowded.symm.trans hk)
      exact ⟨rfl, hfull⟩
    · exact hc.elim

end Crowded

/-- Looking up a file with ten inodes in use. -/
theorem path_resolution_roomy : ∃ (r : Slot) (t : State ℕ) (b : View ℕ),
    (namei 0 [slash, 97]).exec handle (crowded 10) = .ok (some r, t) ∧ Rel t b ∧
    ∃ w, (crowded 10).view.Taken r 100 w ∧ b = (crowded 10).view.refTo r 100 none w := by
  have hn : 0 < 10 := by decide
  obtain ⟨-, t, ht, hnamei, -⟩ := path_resolution (rel_crowded hn) (tidy_crowded hn) (p := 0)
    (by exact Option.some_ne_none _) [slash, 97]
  obtain rfl : t = ROOTINO := ht
  have hsome : (crowded 10).view.resolve ROOTINO (components [slash, 97]) = some 100 := by
    decide +kernel
  rcases hnamei with ⟨-, r, t, b, hexec, hrel, ⟨hnone, -⟩ | ⟨u, j, w, hu, rfl, hj, hb⟩⟩ | ⟨msg, hmsg, -⟩
  · rw [hsome] at hnone
    cases hnone
  · obtain rfl := Option.some.inj (hsome.symm.trans hu)
    exact ⟨j, t, b, hexec, hrel, w, hj, hb⟩
  · exact absurd (crowded_inode_none (n := 10) (i := 20) (by decide))
      ((stopsAt_crowded hn hmsg).2.2.2 0 (grab_crowded hn).1 20 (by decide))

/-- **The inode cache is full**: `namei("/a")` panics, although there is a file with the name. -/
theorem namei_crowded : Rel (crowded NINODE) (crowded NINODE).view ∧ Tidy (crowded NINODE).view ∧
    Sound (crowded NINODE).view ∧
    (crowded NINODE).view.resolve ROOTINO (components [slash, 97]) = some 100 ∧
    (namei 0 [slash, 97]).exec handle (crowded NINODE) = .panic "iget: no inodes" := by
  have hn : 0 < NINODE := by decide
  have hsome : (crowded NINODE).view.resolve ROOTINO (components [slash, 97]) = some 100 := by
    decide +kernel
  refine ⟨rel_crowded hn, tidy_crowded hn, sound_crowded, hsome, ?_⟩
  have hstart : (crowded NINODE).view.start 0 [slash, 97] ROOTINO := rfl
  rcases (rel_crowded hn).finds_namei (tidy_crowded hn) (by exact Option.some_ne_none _) hstart with
    ⟨-, r, t, b, -, -, ⟨hnone, -⟩ | ⟨u, j, w, hu, -, hj, -⟩⟩ | ⟨msg, hmsg, hpanic⟩
  · rw [hsome] at hnone
    cases hnone
  · obtain rfl := Option.some.inj (hsome.symm.trans hu)
    rcases hj.can with ⟨e, he, heq⟩ | ⟨hnone, -⟩
    · exact absurd heq ((grab_crowded hn).2 j e he)
    · rw [crowded_inode j.isLt] at hnone
      cases hnone
  · rwa [(stopsAt_crowded hn hmsg).1] at hpanic

end Xv6.Fs
