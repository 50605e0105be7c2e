import Mathlib.Data.List.Basic
import Xv6.Param

/-!
# Names, directory entries and paths

The pure functions on strings of bytes that directories and path names need:
`strncmp` and `strncpy` of `string.c`, the two fields of a `struct dirent`, and
`skipelem` of `fs.c`. A C string is the list of its bytes up to the terminating
zero; a read past the end of such a list sees that zero.
-/

namespace Xv6.Fs

open List

/-- A string of bytes. -/
abbrev Str := List UInt8

/-- `strncmp`. -/
def strncmp : Str → Str → ℕ → ℤ
  | _, _, 0 => 0
  | p, q, n + 1 =>
    if p.headD 0 ≠ 0 ∧ p.headD 0 = q.headD 0 then
      strncmp p.tail q.tail n
    else
      (p.headD 0).toNat - (q.headD 0).toNat

/-- `strncpy`: the `n` bytes it writes. -/
def strncpy : Str → ℕ → Str
  | _, 0 => []
  | t, n + 1 =>
    if t.headD 0 = 0 then
      List.replicate (n + 1) 0
    else
      t.headD 0 :: strncpy t.tail n

def namecmp (s t : Str) : ℤ := strncmp s t DIRSIZ

/-- The size of a `struct dirent`. -/
def DESIZE : UInt32 := 16

/-- The bytes of a `struct dirent` for a name and an inode number, of which it
keeps 16 bits. -/
def dirent (inum : UInt32) (name : Str) : Str :=
  UInt8.ofNat inum.toNat :: UInt8.ofNat (inum.toNat / 256) :: strncpy name DIRSIZ

/-- The bytes of a `struct dirent` that is all zeros. -/
def emptyDirent : Str := List.replicate DESIZE.toNat 0

/-- The field `inum` of a `struct dirent`. -/
def deInum (de : Str) : UInt32 :=
  UInt32.ofNat ((de.getD 0 0).toNat + 256 * (de.getD 1 0).toNat)

/-- The field `name` of a `struct dirent`. -/
def deName (de : Str) : Str := de.drop 2

/-- The character `/`. -/
def slash : UInt8 := 47

/-- The names of a directory itself and of its parent. -/
def dot : Str := [46]
def dotdot : Str := [46, 46]

/-- `skipelem`: the next path element, cut to `DIRSIZ` bytes, and the path after it
without leading slashes. -/
def skipelem (path : Str) : Option (Str × Str) :=
  let s := path.dropWhile (· == slash)
  if s = [] then
    none
  else
    some ((s.takeWhile (· != slash)).take DIRSIZ,
      (s.dropWhile (· != slash)).dropWhile (· == slash))

/-- What the loop `while((path = skipelem(path, name)) != 0)` goes through: the path
elements, each with the path after it. -/
def skipelems : ℕ → Str → List (Str × Str)
  | 0, _ => []
  | n + 1, path => match skipelem path with
    | none => []
    | some (name, rest) => (name, rest) :: skipelems n rest

/-- The elements of a path; each of them takes up at least one byte. -/
def elems (path : Str) : List (Str × Str) := skipelems path.length path

/-! ### When names are equal -/

/-- What `strncmp` looks at: the bytes before the first zero, at most `n` of
them. -/
def prefixTo : Str → ℕ → Str
  | _, 0 => []
  | s, n + 1 => if s.headD 0 = 0 then [] else s.headD 0 :: prefixTo s.tail n

theorem strncmp_eq_zero : ∀ {n : ℕ} {s t : Str},
    strncmp s t n = 0 ↔ prefixTo s n = prefixTo t n := by
  intro n
  induction n with
  | zero => exact fun {_ _} => iff_of_true rfl rfl
  | succ n ih =>
    intro s t
    rw [strncmp, prefixTo, prefixTo]
    by_cases hs : s.headD 0 = 0
    · -- the first string has ended, so the second must have, too
      rw [if_neg (fun h => h.1 hs), if_pos hs]
      by_cases ht : t.headD 0 = 0
      · rw [if_pos ht, hs, ht]
        simp
      · have hpos : t.headD 0 ≠ 0 := ht
        rw [if_neg ht, hs]
        refine iff_of_false (fun h => hpos ?_) (by simp)
        apply UInt8.toNat.inj
        rw [UInt8.toNat_zero] at h ⊢
        omega
    · by_cases hst : s.headD 0 = t.headD 0
      · rw [if_pos ⟨hs, hst⟩, if_neg hs, if_neg (hst ▸ hs), ih, ← hst]
        simp
      · rw [if_neg (fun h => hst h.2), if_neg hs]
        refine iff_of_false (fun h => hst (UInt8.toNat.inj ?_)) ?_
        · omega
        · split
          · exact cons_ne_nil _ _
          · exact fun h => hst (List.cons.inj h).1

/-- `strncpy` copies what `strncmp` looks at. -/
theorem prefixTo_strncpy : ∀ {n : ℕ} {t : Str}, prefixTo (strncpy t n) n = prefixTo t n := by
  intro n
  induction n with
  | zero => exact fun {_} => rfl
  | succ n ih =>
    intro t
    rw [strncpy, prefixTo, prefixTo]
    by_cases ht : t.headD 0 = 0
    · rw [if_pos ht, if_pos ht]
      exact if_pos rfl
    · simp only [if_neg ht, headD_cons, tail_cons]
      rw [ih]

theorem length_strncpy : ∀ {n : ℕ} {t : Str}, (strncpy t n).length = n := by
  intro n
  induction n with
  | zero => exact fun {_} => rfl
  | succ n ih =>
    intro t
    rw [strncpy]
    split
    · rw [length_replicate]
    · rw [length_cons, ih]

/-- Two names are the same to the file system. -/
def SameName (s t : Str) : Prop := namecmp s t = 0

instance (s t : Str) : Decidable (SameName s t) := inferInstanceAs (Decidable (_ = _))

theorem sameName_iff {s t : Str} : SameName s t ↔ prefixTo s DIRSIZ = prefixTo t DIRSIZ :=
  strncmp_eq_zero

theorem SameName.symm {s t : Str} (h : SameName s t) : SameName t s :=
  sameName_iff.mpr (sameName_iff.mp h).symm

theorem SameName.trans {s t u : Str} (h : SameName s t) (h' : SameName t u) : SameName s u :=
  sameName_iff.mpr ((sameName_iff.mp h).trans (sameName_iff.mp h'))

/-- A name that means a directory itself or its parent. -/
def IsDots (s : Str) : Prop := SameName s dot ∨ SameName s dotdot

instance (s : Str) : Decidable (IsDots s) := inferInstanceAs (Decidable (_ ∨ _))

theorem SameName.isDots {s t : Str} (h : SameName s t) (ht : IsDots t) : IsDots s :=
  ht.imp h.trans h.trans

theorem length_dirent (inum : UInt32) (name : Str) : (dirent inum name).length = 16 := by
  rw [dirent, length_cons, length_cons, length_strncpy]
  rfl

/-- The name in an entry is the one it was made for. -/
theorem sameName_dirent (inum : UInt32) (name : Str) : SameName (deName (dirent inum name)) name := by
  rw [sameName_iff]
  exact prefixTo_strncpy

theorem deInum_dirent {inum : UInt32} (name : Str) (h : inum.toNat < 65536) :
    deInum (dirent inum name) = inum := by
  apply UInt32.toNat.inj
  simp only [deInum, dirent, getD_cons_zero, getD_cons_succ, UInt8.toNat_ofNat',
    UInt32.toNat_ofNat']
  omega

end Xv6.Fs
