import Xv6.Mkfs.Program

/-!
# What mkfs assigns

A run of `mkfs` that ends with `exit(0)` has assigned only block numbers that are on
the image, whatever the files are: every block number is used for an access to the
image as soon as it has been assigned, and reading past the end of the image fails.

Inode numbers are another matter. There is room for more inodes than `NINODES` before
the bitmap, and further inodes are written over the bitmap and the data, which are on
the image as well. So nothing stops the program when there are too many files: the
inode numbers are below `NINODES`, and `winode` writes inode blocks only, if and only
if there are at most `NINODES - 2` files (`Xv6.Mkfs.exit_ok_iff`).
-/

namespace Xv6.Mkfs

variable {s : St}

open Lib Blk Fs List UInt32

/-- The logic of the program, with the messages that must not stop it. -/
def logic (bad : String → Prop) : Logic Op.Res St :=
  ⟨handle, fun _ _ => True, fun _ _ => True, bad, True⟩

section Rules

variable {bad : String → Prop} {s : St} {sec : UInt32} {α : Type} {Q : α → St → Prop}

theorem ok_of_wp {P : MkfsM α} {x : α × St} (h : (logic bad).wp P Q s)
    (hx : P.exec handle s = .ok x) : Q x.1 x.2 := by
  have hout := Logic.outcome (fun _ _ => trivial) h
  change (logic bad).Outcome _ (P.exec handle s) at hout
  rwa [hx] at hout

/-- The program does not wait for anything. -/
theorem handle_ne_disabled (o : Op) (s : St) : handle o s ≠ .disabled := by
  intro hc
  cases o with
  | rsect sec =>
    change (if _ then _ else _) = _ at hc
    split at hc <;> cases hc
  | panic msg => cases hc
  | wsect who sec b => cases hc
  | newInode => cases hc
  | newBlock => cases hc
  | freeblock => cases hc

/-- A run that must not end other than with `exit(0)` succeeds. -/
theorem exists_of_wp {P : MkfsM α} (h : (logic fun _ => True).wp P Q s) :
    ∃ x, P.exec handle s = .ok x ∧ Q x.1 x.2 := by
  rcases Logic.ok_or_panic (fun _ _ => trivial) handle_ne_disabled h with hok | ⟨msg, -, hbad⟩
  · exact hok
  · exact absurd trivial hbad

theorem wp_rsect {Q : Block → St → Prop} (hbad : s.length ≤ (sector sec).toNat → ¬bad "read")
    (hQ : (sector sec).toNat < s.length → Q (s.blk (sector sec)) s) :
    (logic bad).wp (Op.rsect sec).perform Q s := by
  refine fun _ => ⟨trivial, ?_⟩
  change (logic bad).Outcome _ (if _ then _ else _)
  split
  · exact hQ ‹_›
  · exact hbad (not_lt.mp ‹_›)

theorem wp_wsect {Q : Unit → St → Prop} {who : Caller} {b : Block} (hQ : Q () (s.wsect who sec b)) :
    (logic bad).wp (Op.wsect who sec b).perform Q s := fun _ => ⟨trivial, hQ⟩

theorem wp_newInode {Q : UInt32 → St → Prop} (hQ : Q s.freeinode s.newInode) :
    (logic bad).wp Op.newInode.perform Q s := fun _ => ⟨trivial, hQ⟩

theorem wp_newBlock {Q : UInt32 → St → Prop} (hQ : Q s.freeblock s.newBlock) :
    (logic bad).wp Op.newBlock.perform Q s := fun _ => ⟨trivial, hQ⟩

theorem wp_freeblock {Q : UInt32 → St → Prop} (hQ : Q s.freeblock s) :
    (logic bad).wp Op.freeblock.perform Q s := fun _ => ⟨trivial, hQ⟩

theorem wp_panic {msg : String} (h : ¬bad msg) :
    (logic bad).wp (panic msg) Q s := fun _ => ⟨trivial, h⟩

theorem wp_assert {c : Prop} [Decidable c] {Q : Unit → St → Prop} (hbad : ¬c → ¬bad "assert")
    (hQ : c → Q () s) : (logic bad).wp (assert c) Q s := by
  unfold assert
  split
  · exact hQ ‹_›
  · exact wp_panic (hbad ‹_›)

end Rules

theorem toNat_sector (x : UInt32) : (sector x).toNat = x.toNat % 8388608 := by
  have hsize : (UInt32.ofNat BSIZE).toNat = 512 := rfl
  rw [sector, UInt32.toNat_div, UInt32.toNat_mul, hsize]
  omega

/-- A block number that is not far beyond the image is the one `lseek` goes to. -/
theorem sector_eq {x : UInt32} (h : x.toNat ≤ FSSIZE) : sector x = x := by
  unfold FSSIZE at h
  apply UInt32.toNat.inj
  rw [toNat_sector]
  omega

theorem toNat_IBLOCK (i : UInt32) : (IBLOCK sb i).toNat = i.toNat / 8 + 32 := by
  have hstart : sb.inodestart.toNat = 32 := rfl
  have hipb : IPB.toNat = 8 := rfl
  have hi := i.toNat_lt
  rw [IBLOCK, UInt32.toNat_add, UInt32.toNat_div, hstart, hipb]
  omega

/-! ### The bounds -/

/-- **What `mkfs` has assigned** after it has made `n` inodes. -/
structure Bounded (n : ℕ) (s : St) : Prop where
  length : s.length = FSSIZE
  freeinode : s.freeinode.toNat = n + 1
  le : n < 8 * FSSIZE
  inums : ∀ i, i ∈ s.inums ↔ 1 ≤ i.toNat ∧ i.toNat ≤ n
  freeblock : s.freeblock.toNat ≤ FSSIZE
  blocks : ∀ x ∈ s.blocks, x.toNat < FSSIZE
  writes : ∀ b, (Caller.winode, b) ∈ s.writes → ∃ i, i ∈ s.inums ∧ b = IBLOCK sb i

section Bounded

variable {s : St} {n : ℕ} {x i : UInt32} {Q : Unit → St → Prop}

theorem Bounded.wsect (h : Bounded n s) {who : Caller} {b : Block}
    (hsec : (sector x).toNat < s.length)
    (hwho : who = .winode → ∃ i, i ∈ s.inums ∧ x = IBLOCK sb i) : Bounded n (s.wsect who x b) := by
  refine ⟨?_, h.freeinode, h.le, h.inums, h.freeblock, h.blocks, fun y hy => ?_⟩
  · change max s.length _ = _
    rw [max_eq_left hsec, h.length]
  · rcases mem_cons.mp hy with heq | hy
    · obtain ⟨rfl, rfl⟩ := Prod.mk.inj heq
      exact hwho rfl
    · exact h.writes y hy

/-- The block number `x` has just been assigned, and is to be used. -/
def Pending (n : ℕ) (x : UInt32) (s : St) : Prop :=
  Bounded n s ∨ s.length = FSSIZE ∧ x.toNat ≤ FSSIZE ∧ (x.toNat < FSSIZE → Bounded n s)

theorem Bounded.newBlock (h : Bounded n s) : Pending n s.freeblock s.newBlock := by
  refine .inr ⟨h.length, h.freeblock, fun hlt => ?_⟩
  refine ⟨h.length, h.freeinode, h.le, h.inums, ?_, fun y hy => ?_, h.writes⟩
  · change (s.freeblock + 1).toNat ≤ FSSIZE
    rw [UInt32.toNat_add]
    have : (1 : UInt32).toNat = 1 := rfl
    unfold FSSIZE at *
    omega
  · rcases mem_cons.mp hy with rfl | hy
    · exact hlt
    · exact h.blocks y hy

/-- An access to the image with the new block number. -/
theorem Pending.bounded (h : Pending n x s) (hsec : (sector x).toNat < s.length) : Bounded n s := by
  rcases h with h | ⟨hlen, hle, h⟩
  · exact h
  · rw [sector_eq hle, hlen] at hsec
    exact h hsec

/-- An access to another block in between. -/
theorem Pending.wsect (h : Pending n x s) {y : UInt32} {b : Block}
    (hsec : (sector y).toNat < s.length) : Pending n x (s.wsect .iappend y b) := by
  rcases h with h | ⟨hlen, hle, h⟩
  · exact .inl (h.wsect hsec nofun)
  · refine .inr ⟨?_, hle, fun hlt => (h hlt).wsect hsec nofun⟩
    change max s.length _ = _
    rw [max_eq_left hsec, hlen]

/-- A run that ends with `exit(0)`. -/
abbrev partialLogic : Logic Op.Res St := logic fun _ => False

theorem wp_winode_bounded {d : Dinode} (h : Bounded n s) (hi : i ∈ s.inums)
    (hQ : ∀ s', Bounded n s' → s'.inums = s.inums → Q () s') :
    partialLogic.wp (winode i d) Q s := by
  unfold winode
  refine .bind (wp_rsect (fun _ => id) fun hsec => wp_wsect (hQ _ ?_ rfl))
  exact h.wsect hsec fun _ => ⟨i, hi, rfl⟩

theorem wp_rinode_bounded {Q : Dinode → St → Prop} (hQ : ∀ d, Q d s) :
    partialLogic.wp (rinode i) Q s :=
  .bind (wp_rsect (fun _ => id) fun _ => hQ _)

/-- A new inode: its number has been assigned, and its block is on the image. -/
theorem wp_ialloc_bounded {Q : UInt32 → St → Prop} {type : Int16} (h : Bounded n s)
    (hQ : ∀ i s', Bounded (n + 1) s' → i ∈ s'.inums → (∀ j ∈ s.inums, j ∈ s'.inums) → Q i s') :
    partialLogic.wp (ialloc type) Q s := by
  unfold ialloc
  refine .bind (wp_newInode (.bind ?_))
  unfold winode
  refine .bind (wp_rsect (fun _ => id) fun hsec => wp_wsect ?_)
  have hlt : (sector (IBLOCK sb s.freeinode)).toNat < FSSIZE := by
    rwa [← h.length]
  have hle : n + 1 < 8 * FSSIZE := by
    have hle := h.le
    rw [toNat_sector, toNat_IBLOCK, h.freeinode] at hlt
    unfold FSSIZE at *
    omega
  have hmem : ∀ i, i ∈ s.newInode.inums ↔ 1 ≤ i.toNat ∧ i.toNat ≤ n + 1 := by
    intro i
    have hself : i = s.freeinode ↔ i.toNat = n + 1 := by
      rw [← h.freeinode]
      exact UInt32.toNat_inj.symm
    rw [St.newInode, mem_cons, h.inums, hself]
    omega
  have hbounded : Bounded (n + 1) s.newInode := by
    refine ⟨h.length, ?_, hle, hmem, h.freeblock, h.blocks, fun b hb => ?_⟩
    · change (s.freeinode + 1).toNat = n + 1 + 1
      rw [UInt32.toNat_add, h.freeinode]
      have : (1 : UInt32).toNat = 1 := rfl
      unfold FSSIZE at hle
      omega
    · obtain ⟨i, hi, hb⟩ := h.writes b hb
      exact ⟨i, mem_cons_of_mem _ hi, hb⟩
  refine hQ _ _ (hbounded.wsect hsec fun _ => ⟨_, mem_cons_self .., rfl⟩)
    (mem_cons_self ..) fun j hj => mem_cons_of_mem _ hj

theorem wp_findIndirect_bounded {Q : Addrs → St → Prop} {a : Addrs} (h : Bounded n s)
    (hQ : ∀ a' s', Pending n (addr a' NDIRECT) s' → s'.inums = s.inums → Q a' s') :
    partialLogic.wp (findIndirect a) Q s := by
  unfold findIndirect
  split
  · refine .bind (wp_newBlock (hQ _ _ ?_ rfl))
    rw [addr_setAddr le_rfl le_rfl, if_pos rfl]
    exact h.newBlock
  · exact hQ _ _ (.inl h) rfl

theorem wp_findBlock_bounded {Q : Addrs × UInt32 → St → Prop} {a : Addrs} {k : ℕ} (h : Bounded n s)
    (hQ : ∀ a' x s', Pending n x s' → s'.inums = s.inums → Q (a', x) s') :
    partialLogic.wp (findBlock a k) Q s := by
  unfold findBlock
  split
  · split
    · exact .bind (wp_newBlock (hQ _ _ _ h.newBlock rfl))
    · exact hQ _ _ _ (.inl h) rfl
  · refine .bind (wp_findIndirect_bounded h fun a₁ s₁ h₁ hinums => ?_)
    refine .bind (wp_rsect (fun _ => id) fun hsec => ?_)
    have hb := h₁.bounded hsec
    split
    · refine .bind (wp_newBlock (.bind (wp_wsect ?_)))
      exact hQ _ _ _ (hb.newBlock.wsect hsec) hinums
    · exact hQ _ _ _ (.inl hb) hinums

theorem wp_iappendLoop_bounded {Q : Addrs × ℕ → St → Prop} :
    ∀ {m : ℕ} {a : Addrs} {off : ℕ} {p : Str} {s : St}, Bounded n s →
      (∀ r s', Bounded n s' → s'.inums = s.inums → Q r s') →
      partialLogic.wp (iappendLoop m a off p) Q s := by
  intro m
  induction m with
  | zero => exact fun h hQ => hQ _ _ h rfl
  | succ m ih =>
    intro a off p s h hQ
    rw [iappendLoop]
    split
    · exact hQ _ _ h rfl
    · refine .bind (wp_assert (fun _ => id) fun _ => ?_)
      refine .bind (wp_findBlock_bounded h fun a' x s₁ h₁ hinums => ?_)
      refine .bind (wp_rsect (fun _ => id) fun hsec => ?_)
      refine .bind (wp_wsect (ih ((h₁.bounded hsec).wsect hsec nofun) ?_))
      exact fun r s' h' heq => hQ r s' h' (heq.trans hinums)

theorem wp_iappend_bounded {p : Str} (h : Bounded n s) (hi : i ∈ s.inums)
    (hQ : ∀ s', Bounded n s' → s'.inums = s.inums → Q () s') :
    partialLogic.wp (iappend i p) Q s := by
  unfold iappend
  refine .bind (wp_rinode_bounded fun din => ?_)
  refine .bind (wp_iappendLoop_bounded h fun r s₁ h₁ hinums => ?_)
  refine wp_winode_bounded h₁ (by rw [hinums]; exact hi) fun s₂ h₂ heq => ?_
  exact hQ s₂ h₂ (heq.trans hinums)

theorem wp_appendAll_bounded :
    ∀ {cs : List Str} {s : St}, Bounded n s → i ∈ s.inums →
      (∀ s', Bounded n s' → s'.inums = s.inums → Q () s') →
      partialLogic.wp (appendAll i cs) Q s := by
  intro cs
  induction cs with
  | nil => exact fun h _ hQ => hQ _ h rfl
  | cons c cs ih =>
    intro s h hi hQ
    refine .bind (wp_iappend_bounded h hi fun s₁ h₁ heq => ?_)
    exact ih h₁ (by rw [heq]; exact hi) fun s₂ h₂ heq' => hQ s₂ h₂ (heq'.trans heq)

theorem wp_addFiles_bounded {root : UInt32} :
    ∀ {files : List HostFile} {n : ℕ} {s : St}, Bounded n s → root ∈ s.inums →
      (∀ s', Bounded (n + files.length) s' → root ∈ s'.inums → Q () s') →
      partialLogic.wp (addFiles root files) Q s := by
  intro files
  induction files with
  | nil => exact fun h hroot hQ => hQ _ h hroot
  | cons f files ih =>
    intro n s h hroot hQ
    refine .bind ?_
    unfold addFile
    refine .bind (wp_assert (fun _ => id) fun _ => ?_)
    split
    · exact wp_panic id
    · refine .bind (wp_ialloc_bounded h fun i s₁ h₁ hi hmono => ?_)
      have hroot₁ := hmono root hroot
      refine .bind (wp_iappend_bounded h₁ hroot₁ fun s₂ h₂ heq => ?_)
      refine wp_appendAll_bounded h₂ (by rw [heq]; exact hi) fun s₃ h₃ heq' => ?_
      refine ih h₃ (by rw [heq', heq]; exact hroot₁) fun s₄ h₄ hroot₄ => hQ s₄ ?_ hroot₄
      rwa [length_cons, Nat.add_comm files.length, ← Nat.add_assoc]

end Bounded

/-! ### The program -/

/-- The image while it is filled with zeros, when it is `i` blocks long. -/
structure Fresh (i : ℕ) (s : St) : Prop where
  length : s.length = i
  blk : s.blk = fun _ _ => 0
  freeinode : s.freeinode = 1
  freeblock : s.freeblock = nmeta
  inums : s.inums = []
  blocks : s.blocks = []
  writes : ∀ b, (Caller.winode, b) ∉ s.writes

theorem wp_zeroBlocks {bad : String → Prop} {Q : Unit → St → Prop} :
    ∀ {n : ℕ} {i : UInt32} {s : St}, Fresh i.toNat s → i.toNat + n = FSSIZE → (∀ s', Fresh FSSIZE s' → Q () s') →
    (logic bad).wp (zeroBlocks n i) Q s := by
  intro n
  induction n with
  | zero =>
    intro i s h hi hQ
    rw [Nat.add_zero] at hi
    rw [hi] at h
    exact hQ s h
  | succ n ih =>
    intro i s h hi hQ
    refine .bind (wp_wsect (ih ?_ ?_ hQ))
    · have hsec : sector i = i := sector_eq (by omega)
      have hsucc : (i + 1).toNat = i.toNat + 1 := by
        rw [UInt32.toNat_add]
        have : (1 : UInt32).toNat = 1 := rfl
        unfold FSSIZE at hi
        omega
      refine ⟨?_, ?_, h.freeinode, h.freeblock, h.inums, h.blocks, fun b hb => ?_⟩
      · change max s.length _ = _
        rw [h.length, hsec, hsucc]
        omega
      · change Function.update s.blk _ _ = _
        rw [h.blk]
        exact Function.update_eq_self ..
      · rcases mem_cons.mp hb with heq | hb
        · cases heq
        · exact h.writes b hb
    · rw [UInt32.toNat_add]
      have : (1 : UInt32).toNat = 1 := rfl
      unfold FSSIZE at *
      omega

theorem fresh_init : Fresh 0 St.init :=
  ⟨rfl, rfl, rfl, rfl, rfl, rfl, fun _ hb => by cases hb⟩

theorem Fresh.bounded (h : Fresh FSSIZE s) : Bounded 0 (s.wsect .main 1 sb.encode) := by
  refine Bounded.wsect ⟨h.length, ?_, by decide, fun i => ?_, ?_, fun x hx => ?_,
    fun b hb => absurd hb (h.writes b)⟩ ?_ nofun
  · rw [h.freeinode]
    rfl
  · rw [h.inums]
    exact iff_of_false not_mem_nil (by omega)
  · rw [h.freeblock]
    decide
  · rw [h.blocks] at hx
    cases hx
  · rw [h.length, sector_eq (by decide)]
    decide

theorem wp_main_bounded (files : List HostFile) :
    partialLogic.wp (main files) (fun _ s => Bounded (files.length + 1) s) St.init := by
  unfold main
  refine .bind (wp_zeroBlocks fresh_init (by decide) fun s hs => ?_)
  refine .bind (wp_wsect ?_)
  refine .bind (wp_ialloc_bounded hs.bounded fun i s₁ h₁ hi _ => ?_)
  refine .bind (wp_assert (fun _ => id) fun _ => ?_)
  refine .bind (wp_iappend_bounded h₁ hi fun s₂ h₂ heq₂ => ?_)
  rw [← heq₂] at hi
  refine .bind (wp_iappend_bounded h₂ hi fun s₃ h₃ heq₃ => ?_)
  rw [← heq₃] at hi
  refine .bind (wp_addFiles_bounded h₃ hi fun s₄ h₄ hi => ?_)
  refine .bind ?_
  unfold fixRoot
  refine .bind (wp_rinode_bounded fun din => ?_)
  refine wp_winode_bounded h₄ hi fun s₅ h₅ _ => ?_
  refine .bind (wp_freeblock ?_)
  unfold balloc
  refine .bind (wp_assert (fun _ => id) fun _ => wp_wsect ?_)
  rw [Nat.add_comm]
  refine h₅.wsect ?_ nofun
  rw [h₅.length, sector_eq (by decide)]
  decide

/-- What a run that ends with `exit(0)` has assigned. -/
theorem main_bounded {files : List HostFile} (h : (main files).exec handle St.init = .ok ((), s)) :
    Bounded (files.length + 1) s := by
  exact ok_of_wp (wp_main_bounded files) h

/-- **`mkfs` has kept to the image**: block numbers and inode numbers are below their
bounds, and `winode` has written inode blocks only. -/
structure Kept (s : St) : Prop where
  blocks : ∀ x ∈ s.blocks, x < fssize
  inums : ∀ i ∈ s.inums, i < NINODES
  winode : ∀ b, (Caller.winode, b) ∈ s.writes → sb.inodestart ≤ b ∧ b < sb.bmapstart

theorem Bounded.kept_iff {n : ℕ} (h : Bounded (n + 1) s) :
    Kept s ↔ n ≤ NINODES.toNat - 2 := by
  have hnin : NINODES.toNat = 200 := rfl
  refine ⟨fun hk => ?_, fun hle => ⟨fun x hx => lt_iff_toNat_lt.mpr (h.blocks x hx),
    fun i hi => ?_, fun b hw => ?_⟩⟩
  · by_contra hlt
    have hi : NINODES ∈ s.inums := (h.inums NINODES).mpr ⟨by omega, by omega⟩
    exact absurd (hk.inums NINODES hi) (by decide)
  · have := (h.inums i).mp hi
    rw [lt_iff_toNat_lt]
    omega
  · obtain ⟨i, hi, rfl⟩ := h.writes b hw
    have := (h.inums i).mp hi
    have hlo : sb.inodestart.toNat = 32 := rfl
    have hhi : sb.bmapstart.toNat = 58 := rfl
    rw [le_iff_toNat_le, lt_iff_toNat_lt, toNat_IBLOCK, hlo, hhi]
    omega

end Xv6.Mkfs
