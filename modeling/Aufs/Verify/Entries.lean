import Aufs.Kern.Dir
import Aufs.Verify.GetBlock

/-! Directories as lists of entries. The loops of `kern/dir.c` run over pages and over the slots of
a page; here each of them is reduced to one statement about the slots below `i_size`, counted
through, and each directory operation to what it does to the list of entries. -/

namespace Aufs
open Bytes Word

variable {order : ByteOrder} {dir : AufsInode} {content : Mem} {env : DirEnv} {name : List Byte}

/-! ## Slots -/

/-- A name the VFS lets through: 1 to 60 bytes, none of them NUL. -/
structure ValidName (name : List Byte) : Prop where
  pos : 1 ≤ name.length
  le : name.length ≤ AUFS_NAME_LEN
  noNul : 0 ∉ name

/-- The name of the entry at `p`, up to the first NUL. -/
def nameAt (m : Mem) (p : Nat) : List Byte :=
  (peek m (p + ddeName) AUFS_NAME_LEN).takeWhile (· ≠ 0)

/-- The entry in slot `k`. -/
def slot (order : ByteOrder) (content : Mem) (k : Nat) : List Byte × Nat :=
  (nameAt content (k * AUFS_DIR_SIZE), ddeIno order content (k * AUFS_DIR_SIZE))

/-- The entries of a directory, in slot order. -/
def dirEntries (order : ByteOrder) (dir : AufsInode) (content : Mem) : List (List Byte × Nat) :=
  (List.range (dir.iSize / AUFS_DIR_SIZE)).map (slot order content)

/-- The size is a whole number of slots, and every slot is in use. -/
structure WellFormed (order : ByteOrder) (dir : AufsInode) (content : Mem) : Prop where
  aligned : dir.iSize % AUFS_DIR_SIZE = 0
  used : ∀ k < dir.iSize / AUFS_DIR_SIZE, (slot order content k).2 ≠ 0

/-- The 64 bytes at `p` in `m` are those at `p'` in `m'`. -/
def SameSlot (m : Mem) (p : Nat) (m' : Mem) (p' : Nat) : Prop :=
  ∀ a < AUFS_DIR_SIZE, m (p + a) = m' (p' + a)

theorem SameSlot.nameAt (h : SameSlot m p m' p') : nameAt m p = nameAt m' p' := by
  rw [Aufs.nameAt, Aufs.nameAt, peek_congr fun k hk => ?_]
  simp only [AUFS_NAME_LEN] at hk
  rw [Nat.add_assoc, Nat.add_assoc]
  exact h (ddeName + k) (by simp only [ddeName, AUFS_DIR_SIZE]; omega)

theorem SameSlot.ddeIno (h : SameSlot m p m' p') : ddeIno order m p = ddeIno order m' p' := by
  rw [Aufs.ddeIno, Aufs.ddeIno, getWord, getWord, peek_congr fun k hk => ?_]
  exact h k (by simp only [AUFS_DIR_SIZE]; omega)

/-- `namecompare` compares with the name in the slot. -/
theorem namecompare_iff (hname : ValidName name) :
    namecompare AUFS_NAME_LEN name m (p + ddeName) = true ↔ nameAt m p = name := by
  have hle := hname.le
  rw [nameAt, takeWhile_ne_iff hname.noNul, peek_length, take_peek hle, namecompare]
  by_cases hlt : name.length < AUFS_NAME_LEN
  · rw [peek_getElem? hlt]
    simp only [hlt, true_and, forall_const, Option.some.injEq]
    by_cases hz : m (p + ddeName + name.length) = 0 <;> simp [hz, and_comm]
  · simp [hlt]

/-- How a name shows in a slot. -/
theorem nameAt_eq (hname : ValidName name) (hbytes : peek m (p + ddeName) name.length = name)
    (hend : name.length < AUFS_NAME_LEN → m (p + ddeName + name.length) = 0) :
    nameAt m p = name := by
  rw [nameAt, takeWhile_ne_iff hname.noNul, peek_length, take_peek hname.le]
  refine ⟨hbytes, fun hlt => ?_⟩
  rw [peek_getElem? hlt, hend hlt]

@[simp] theorem dirEntries_length :
    (dirEntries order dir content).length = dir.iSize / AUFS_DIR_SIZE := by
  simp [dirEntries]

theorem dirEntries_getElem? (h : k < dir.iSize / AUFS_DIR_SIZE) :
    (dirEntries order dir content)[k]? = some (slot order content k) := by
  simp [dirEntries, h]

theorem mem_dirEntries : e ∈ dirEntries order dir content ↔
    ∃ k < dir.iSize / AUFS_DIR_SIZE, slot order content k = e := by
  simp [dirEntries]

theorem dirEntries_congr {dir' : AufsInode} {content' : Mem} (hsize : dir'.iSize = dir.iSize)
    (h : ∀ a < dir.iSize, content' a = content a) :
    dirEntries order dir' content' = dirEntries order dir content := by
  rw [dirEntries, dirEntries, hsize]
  apply List.map_congr_left
  intro k hk
  have hk := List.mem_range.mp hk
  have same : SameSlot content' (k * AUFS_DIR_SIZE) content (k * AUFS_DIR_SIZE) := by
    intro a ha
    simp only [AUFS_DIR_SIZE] at *
    exact h _ (by omega)
  rw [slot, slot, same.nameAt, same.ddeIno]

/-! ## Pages -/

section
variable {n i : Nat}

/-- Slot `i` of page `n` is slot `n * 64 + i` of the directory. -/
theorem page_slot (h : n * 64 + i < dir.iSize / AUFS_DIR_SIZE) :
    SameSlot (env.page dir content n) (i * AUFS_DIR_SIZE)
      content ((n * 64 + i) * AUFS_DIR_SIZE) := by
  intro a ha
  have heq : n * PAGE_SIZE + (i * AUFS_DIR_SIZE + a) = (n * 64 + i) * AUFS_DIR_SIZE + a := by
    simp only [AUFS_DIR_SIZE, PAGE_SIZE]
    omega
  have hlt : (n * 64 + i) * AUFS_DIR_SIZE + a < dir.iSize := by
    simp only [AUFS_DIR_SIZE] at *
    omega
  change env.pageCache dir content _ = _
  rw [heq, DirEnv.pageCache, if_pos hlt]

theorem slotsPerPage : PAGE_SIZE / AUFS_DIR_SIZE = 64 := rfl

/-- How many slots of page `n` lie below `i_size`. -/
def pageSlots (dir : AufsInode) (n : Nat) : Nat := min 64 (dir.iSize / AUFS_DIR_SIZE - n * 64)

theorem minixLastByte_eq (h : dir.iSize % AUFS_DIR_SIZE = 0)
    (hn : n ≤ dir.iSize / AUFS_DIR_SIZE / 64) :
    minixLastByte dir n = pageSlots dir n * AUFS_DIR_SIZE := by
  by_cases hlast : n = dir.iSize / PAGE_SIZE
  · rw [minixLastByte, if_pos hlast]
    simp only [pageSlots, AUFS_DIR_SIZE, PAGE_SIZE] at *
    omega
  · rw [minixLastByte, if_neg hlast]
    simp only [pageSlots, AUFS_DIR_SIZE, PAGE_SIZE] at *
    omega

theorem dirPages_eq (h : dir.iSize % AUFS_DIR_SIZE = 0) :
    dirPages dir = (dir.iSize / AUFS_DIR_SIZE + 63) / 64 := by
  simp only [dirPages, AUFS_DIR_SIZE, PAGE_SIZE] at *
  omega

theorem pageSlots_used (wf : WellFormed order dir content) (hi : i < pageSlots dir n) :
    ddeIno order (env.page dir content n) (i * AUFS_DIR_SIZE) ≠ 0 := by
  unfold pageSlots at hi
  rw [(page_slot (by omega)).ddeIno]
  exact wf.used _ (by omega)

theorem pageSlots_name (hi : i < pageSlots dir n) :
    nameAt (env.page dir content n) (i * AUFS_DIR_SIZE) =
      (slot order content (n * 64 + i)).1 := by
  unfold pageSlots at hi
  exact (page_slot (by omega)).nameAt

/-- The page that `dir_get_page` returns. -/
theorem dirGetPage_cases (env : DirEnv) (dir : AufsInode) (content : Mem) (n : Nat) :
    (∃ e, env.readMappingPage n = .error e ∧ dirGetPage env dir content n = .error e) ∨
      dirGetPage env dir content n =
        .ok (env.page dir content n) := by
  unfold dirGetPage
  cases env.readMappingPage n with
  | error e => exact .inl ⟨e, rfl, rfl⟩
  | ok u => exact .inr rfl

end

/-! ## Searching -/

/-- The inner loop of `minix_find_entry` over a page whose first `e` slots are in use. -/
theorem minixFindEntryPage_spec (hname : ValidName name)
    (hused : ∀ i < e, ddeIno order page (i * AUFS_DIR_SIZE) ≠ 0) (he : e ≤ 64) (hk : i + k = 64) :
    (∃ i', i ≤ i' ∧ i' < e ∧ nameAt page (i' * AUFS_DIR_SIZE) = name ∧
      minixFindEntryPage order name page (e * AUFS_DIR_SIZE) k (i * AUFS_DIR_SIZE) =
        some (i' * AUFS_DIR_SIZE)) ∨
    (∀ i', i ≤ i' → i' < e → nameAt page (i' * AUFS_DIR_SIZE) ≠ name) ∧
      minixFindEntryPage order name page (e * AUFS_DIR_SIZE) k (i * AUFS_DIR_SIZE) = none := by
  induction k generalizing i with
  | zero => exact .inr ⟨fun i' h₁ h₂ => by omega, rfl⟩
  | succ k ih =>
    rw [minixFindEntryPage, ← Nat.succ_mul]
    by_cases hi : i < e
    · have hle : i.succ * AUFS_DIR_SIZE ≤ e * AUFS_DIR_SIZE := Nat.mul_le_mul_right _ hi
      rw [if_pos hle, if_neg (hused i hi)]
      by_cases hcmp : namecompare AUFS_NAME_LEN name page (i * AUFS_DIR_SIZE + ddeName) = true
      · rw [if_pos hcmp]
        exact .inl ⟨i, Nat.le_refl _, hi, (namecompare_iff hname).mp hcmp, rfl⟩
      · rw [if_neg hcmp]
        rcases ih (i := i.succ) (by omega) with ⟨i', h₁, h₂, hn, heq⟩ | ⟨hall, heq⟩
        · exact .inl ⟨i', by omega, h₂, hn, heq⟩
        · refine .inr ⟨fun i' h₁ h₂ => ?_, heq⟩
          by_cases hii : i' = i
          · exact hii ▸ fun hn => hcmp ((namecompare_iff hname).mpr hn)
          · exact hall i' (by omega) h₂
    · have hgt : ¬i.succ * AUFS_DIR_SIZE ≤ e * AUFS_DIR_SIZE := by
        simp only [AUFS_DIR_SIZE]
        omega
      rw [if_neg hgt]
      exact .inr ⟨fun i' h₁ h₂ => by omega, rfl⟩

/-- The pages from `n` on: the search finds a slot with the name, or there is none, or a page could
not be read. -/
theorem minixFindEntryLoop_spec (env : DirEnv) (wf : WellFormed order dir content)
    (hname : ValidName name) (hk : n + k = dirPages dir) :
    (∃ g page p, g < dir.iSize / AUFS_DIR_SIZE ∧ (slot order content g).1 = name ∧
      minixFindEntryLoop order env dir content name k n = some (page, p) ∧
      ddeIno order page p = (slot order content g).2) ∨
    minixFindEntryLoop order env dir content name k n = none ∧
      ((∀ g, n * 64 ≤ g → g < dir.iSize / AUFS_DIR_SIZE → (slot order content g).1 ≠ name) ∨
        ∃ m e, env.readMappingPage m = .error e) := by
  have hpages := dirPages_eq wf.aligned
  induction k generalizing n with
  | zero => exact .inr ⟨rfl, .inl fun g h₁ h₂ => by omega⟩
  | succ k ih =>
    rw [minixFindEntryLoop]
    rcases dirGetPage_cases env dir content n with ⟨e, he, heq⟩ | heq
    · rw [heq]
      rcases ih (n := n + 1) (by omega) with hfound | ⟨hnone, -⟩
      · exact .inl hfound
      · exact .inr ⟨hnone, .inr ⟨n, e, he⟩⟩
    · rw [heq]
      have hused : ∀ i < pageSlots dir n,
          ddeIno order (env.page dir content n) (i * AUFS_DIR_SIZE) ≠ 0 :=
        fun i hi => pageSlots_used wf hi
      have hpage := minixFindEntryPage_spec hname hused (Nat.min_le_left ..) (Nat.zero_add 64)
      rw [Nat.zero_mul] at hpage
      simp only [minixLastByte_eq wf.aligned (show n ≤ dir.iSize / AUFS_DIR_SIZE / 64 by omega),
        slotsPerPage]
      rcases hpage with ⟨i, -, hi, hn, heq'⟩ | ⟨hall, heq'⟩
      · have hg : n * 64 + i < dir.iSize / AUFS_DIR_SIZE := by
          unfold pageSlots at hi
          omega
        rw [pageSlots_name hi] at hn
        refine .inl ⟨n * 64 + i, env.page dir content n, i * AUFS_DIR_SIZE, hg, hn, ?_, ?_⟩
        · rw [heq']
        · exact (page_slot hg).ddeIno
      · rw [heq']
        rcases ih (n := n + 1) (by omega) with hfound | ⟨hnone, hrest⟩
        · exact .inl hfound
        · refine .inr ⟨hnone, hrest.imp_left fun hrest g h₁ h₂ => ?_⟩
          by_cases hg : (n + 1) * 64 ≤ g
          · exact hrest g hg h₂
          · have hi : g - n * 64 < pageSlots dir n := by
              unfold pageSlots
              omega
            have := hall (g - n * 64) (Nat.zero_le _) hi
            rwa [pageSlots_name hi, Nat.add_sub_cancel' h₁] at this

theorem minixInodeByName_spec (env : DirEnv) (wf : WellFormed order dir content)
    (hname : ValidName name) :
    (∃ g < dir.iSize / AUFS_DIR_SIZE, (slot order content g).1 = name ∧
      minixInodeByName order env dir content name = (slot order content g).2) ∨
    minixInodeByName order env dir content name = 0 ∧
      ((∀ g < dir.iSize / AUFS_DIR_SIZE, (slot order content g).1 ≠ name) ∨
        ∃ m e, env.readMappingPage m = .error e) := by
  unfold minixInodeByName minixFindEntry
  rcases minixFindEntryLoop_spec env wf hname (Nat.zero_add _) with
    ⟨g, page, p, hg, hn, heq, hino⟩ | ⟨heq, hrest⟩
  · exact .inl ⟨g, hg, hn, by rw [heq]; exact hino⟩
  · refine .inr ⟨by rw [heq], hrest.imp_left fun hall g hg => hall g (by omega) hg⟩

/-! ## Adding -/

/-- The inner loop of `minix_add_link` over a page whose first `e` slots are in use, the rest lying
behind `i_size`. -/
theorem minixAddLinkPage_spec (hname : ValidName name)
    (hused : ∀ i < e, ddeIno order page (i * AUFS_DIR_SIZE) ≠ 0) (he : e ≤ 64) (hk : i + k = 64)
    (hi : i ≤ e) :
    (∃ i', i ≤ i' ∧ i' < e ∧ nameAt page (i' * AUFS_DIR_SIZE) = name) ∧
      minixAddLinkPage order name page (e * AUFS_DIR_SIZE) k (i * AUFS_DIR_SIZE) = .exist ∨
    (∀ i', i ≤ i' → i' < e → nameAt page (i' * AUFS_DIR_SIZE) ≠ name) ∧
      minixAddLinkPage order name page (e * AUFS_DIR_SIZE) k (i * AUFS_DIR_SIZE) =
        if e < 64 then .gotIt (e * AUFS_DIR_SIZE) else .next := by
  induction k generalizing i with
  | zero =>
    refine .inr ⟨fun i' h₁ h₂ => by omega, ?_⟩
    rw [if_neg (by omega)]
    rfl
  | succ k ih =>
    rw [minixAddLinkPage, ← Nat.succ_mul]
    by_cases hie : i = e
    · refine .inr ⟨fun i' h₁ h₂ => by omega, ?_⟩
      rw [if_pos (by rw [hie]), if_pos (by omega), hie]
    · have hlt : i < e := by omega
      have hne : i * AUFS_DIR_SIZE ≠ e * AUFS_DIR_SIZE := by
        simp only [AUFS_DIR_SIZE]
        omega
      rw [if_neg hne, if_neg (hused i hlt)]
      by_cases hcmp : namecompare AUFS_NAME_LEN name page (i * AUFS_DIR_SIZE + ddeName) = true
      · rw [if_pos hcmp]
        exact .inl ⟨⟨i, Nat.le_refl _, hlt, (namecompare_iff hname).mp hcmp⟩, rfl⟩
      · rw [if_neg hcmp]
        rcases ih (i := i.succ) (by omega) hlt with ⟨⟨i', h₁, h₂, hn⟩, heq⟩ | ⟨hall, heq⟩
        · exact .inl ⟨⟨i', by omega, h₂, hn⟩, heq⟩
        · refine .inr ⟨fun i' h₁ h₂ => ?_, heq⟩
          by_cases hii : i' = i
          · exact hii ▸ fun hn => hcmp ((namecompare_iff hname).mpr hn)
          · exact hall i' (by omega) h₂

/-- The pages from `n` on: the name is there, or the search stops at `i_size`, or at a page that
could not be read. -/
theorem minixAddLinkLoop_spec (env : DirEnv) (wf : WellFormed order dir content)
    (hname : ValidName name) (hk : n + k = dirPages dir + 1)
    (hn : n ≤ dir.iSize / AUFS_DIR_SIZE / 64) :
    (∃ g < dir.iSize / AUFS_DIR_SIZE, (slot order content g).1 = name) ∧
      minixAddLinkLoop order env dir content name k n = .out .eexist ∨
    (∀ g, n * 64 ≤ g → g < dir.iSize / AUFS_DIR_SIZE → (slot order content g).1 ≠ name) ∧
      minixAddLinkLoop order env dir content name k n = .gotIt dir.iSize ∨
    ∃ m e, env.readMappingPage m = .error e ∧
      minixAddLinkLoop order env dir content name k n = .out e := by
  have hpages := dirPages_eq wf.aligned
  induction k generalizing n with
  | zero => omega
  | succ k ih =>
    rw [minixAddLinkLoop]
    rcases dirGetPage_cases env dir content n with ⟨e, he, heq⟩ | heq
    · rw [heq]
      exact .inr (.inr ⟨n, e, he, rfl⟩)
    · rw [heq]
      have hused : ∀ i < pageSlots dir n,
          ddeIno order (env.page dir content n) (i * AUFS_DIR_SIZE) ≠ 0 :=
        fun i hi => pageSlots_used wf hi
      have hpage := minixAddLinkPage_spec hname hused (Nat.min_le_left ..) (Nat.zero_add 64)
        (Nat.zero_le _)
      rw [Nat.zero_mul] at hpage
      simp only [minixLastByte_eq wf.aligned hn, slotsPerPage]
      rcases hpage with ⟨⟨i, -, hi, hname'⟩, heq'⟩ | ⟨hall, heq'⟩
      · rw [pageSlots_name hi] at hname'
        refine .inl ⟨⟨n * 64 + i, ?_, hname'⟩, by rw [heq']⟩
        unfold pageSlots at hi
        omega
      · have hpre : ∀ g, n * 64 ≤ g → g < n * 64 + pageSlots dir n →
            (slot order content g).1 ≠ name := by
          intro g h₁ h₂
          have hi : g - n * 64 < pageSlots dir n := by omega
          have := hall (g - n * 64) (Nat.zero_le _) hi
          rwa [pageSlots_name hi, Nat.add_sub_cancel' h₁] at this
        by_cases hfull : pageSlots dir n < 64
        · rw [heq', if_pos hfull]
          have hend : n * 64 + pageSlots dir n = dir.iSize / AUFS_DIR_SIZE := by
            unfold pageSlots at *
            omega
          refine .inr (.inl ⟨fun g h₁ h₂ => hpre g h₁ (by omega), ?_⟩)
          have hsize : n * PAGE_SIZE + pageSlots dir n * AUFS_DIR_SIZE = dir.iSize := by
            have := wf.aligned
            simp only [AUFS_DIR_SIZE, PAGE_SIZE] at *
            omega
          exact congrArg AddLinkScan.gotIt hsize
        · rw [heq', if_neg hfull]
          have hslots : pageSlots dir n = 64 := by
            unfold pageSlots at *
            omega
          have hnext : n + 1 ≤ dir.iSize / AUFS_DIR_SIZE / 64 := by
            unfold pageSlots at *
            omega
          rcases ih (n := n + 1) (by omega) hnext with hex | ⟨hrest, heq''⟩ | hfail
          · exact .inl hex
          · refine .inr (.inl ⟨fun g h₁ h₂ => ?_, heq''⟩)
            by_cases hg : (n + 1) * 64 ≤ g
            · exact hrest g hg h₂
            · exact hpre g h₁ (by omega)
          · exact .inr (.inr hfail)

/-- The entry that `minix_add_link` stores. -/
theorem nameAt_putEntry (hname : ValidName name) :
    nameAt (putEntry order m pos ino name) pos = name := by
  have hle : name.length ≤ 60 := hname.le
  have hlen : (name ++ List.replicate (AUFS_DIR_SIZE - name.length - 4) (0 : Byte)).length =
      AUFS_NAME_LEN := by
    simp only [List.length_append, List.length_replicate, AUFS_DIR_SIZE, AUFS_NAME_LEN]
    omega
  have hpeek : peek (putEntry order m pos ino name) (pos + ddeName) AUFS_NAME_LEN =
      name ++ List.replicate (AUFS_DIR_SIZE - name.length - 4) 0 := by
    rw [putEntry, putWord, peek_poke_disjoint (.inr (by
      rw [ByteOrder.bytes_length]; exact Nat.le_refl _))]
    rw [← hlen]
    exact peek_poke_same
  rw [nameAt, hpeek, takeWhile_ne_iff hname.noNul]
  refine ⟨List.take_left, fun hlt => ?_⟩
  rw [hlen] at hlt
  rw [List.getElem?_append_right (Nat.le_refl _), Nat.sub_self, List.getElem?_replicate,
    if_pos (by simp only [AUFS_DIR_SIZE, AUFS_NAME_LEN] at *; omega)]

theorem ddeIno_putEntry (hino : ino < 2 ^ 32) :
    ddeIno order (putEntry order m pos ino name) pos = ino := by
  rw [ddeIno, putEntry, getWord_putWord_same]
  exact Nat.mod_eq_of_lt hino

theorem putEntry_outside (hname : ValidName name) (h : a < pos ∨ pos + AUFS_DIR_SIZE ≤ a) :
    putEntry order m pos ino name a = m a := by
  have hle : name.length ≤ 60 := hname.le
  simp only [AUFS_DIR_SIZE] at h
  rw [putEntry, putWord_outside (by simp only [ddeInode]; omega), poke_outside]
  simp only [List.length_append, List.length_replicate, ddeName, AUFS_DIR_SIZE]
  omega

/-- A directory grown by one entry at its end. -/
structure Appended (order : ByteOrder) (dir : AufsInode) (content : Mem) (name : List Byte)
    (ino : Nat) (dir' : AufsInode) (content' : Mem) : Prop where
  size : dir'.iSize = dir.iSize + AUFS_DIR_SIZE
  old : ∀ a < dir.iSize, content' a = content a
  entries : dirEntries order dir' content' = dirEntries order dir content ++ [(name, ino)]

theorem Appended.wellFormed (wf : WellFormed order dir content) (hino : ino ≠ 0)
    (h : Appended order dir content name ino dir' content') :
    WellFormed order dir' content' := by
  have hsize := h.size
  have hal := wf.aligned
  refine ⟨by rw [hsize, Nat.add_mod_right, hal], fun k hk => ?_⟩
  have hget : (dirEntries order dir' content')[k]? = some (slot order content' k) :=
    dirEntries_getElem? hk
  have hlt : k ≤ dir.iSize / AUFS_DIR_SIZE := by
    simp only [AUFS_DIR_SIZE] at *
    omega
  rw [h.entries] at hget
  rcases Nat.lt_or_eq_of_le hlt with hlt | rfl
  · rw [List.getElem?_append_left (by rwa [dirEntries_length]), dirEntries_getElem? hlt] at hget
    rw [← Option.some.inj hget]
    exact wf.used k hlt
  · rw [List.getElem?_append_right (by rw [dirEntries_length]), dirEntries_length,
      Nat.sub_self] at hget
    rw [← Option.some.inj hget]
    exact hino

/-- Storing an entry at `i_size` and moving `i_size` behind it. -/
theorem appended_putEntry (wf : WellFormed order dir content) (hname : ValidName name)
    (hino : ino < 2 ^ 32) (hsize : dir'.iSize = dir.iSize + AUFS_DIR_SIZE) :
    Appended order dir content name ino dir'
      (putEntry order (env.pageCache dir content) dir.iSize ino name) := by
  have hal := wf.aligned
  have hold : ∀ a < dir.iSize,
      putEntry order (env.pageCache dir content) dir.iSize ino name a = content a := by
    intro a ha
    rw [putEntry_outside hname (.inl ha), DirEnv.pageCache, if_pos ha]
  refine ⟨hsize, hold, ?_⟩
  have hdiv : dir'.iSize / AUFS_DIR_SIZE = dir.iSize / AUFS_DIR_SIZE + 1 := by
    rw [hsize]
    simp only [AUFS_DIR_SIZE] at *
    omega
  have hlast : dir.iSize / AUFS_DIR_SIZE * AUFS_DIR_SIZE = dir.iSize := by
    simp only [AUFS_DIR_SIZE] at *
    omega
  rw [dirEntries, hdiv, List.range_succ, List.map_append, List.map_singleton, slot, hlast,
    nameAt_putEntry hname, ddeIno_putEntry hino]
  have hprev :
      dirEntries order dir (putEntry order (env.pageCache dir content) dir.iSize ino name) =
        dirEntries order dir content := dirEntries_congr rfl hold
  rw [← hprev]
  rfl

/-! ## The operations -/

theorem minixPrepareChunk_inode (sb : Sb) (env : DirEnv) (zmap : MapBlocks) (inode : AufsInode)
    (pos : Nat) :
    ∃ ptr, (minixPrepareChunk sb env zmap inode pos).inode = { inode with aiZonePtr := ptr } := by
  have h := aufsGetBlock_inode sb zmap inode env.behind (pos / sb.sBlocksize) sb.sBlocksize true
  simp only [minixPrepareChunk]
  split
  · exact h
  · exact h

theorem minixPrepareChunk_newZone (sb : Sb) (env : DirEnv) (zmap : MapBlocks) (inode : AufsInode)
    (pos : Nat) :
    (minixPrepareChunk sb env zmap inode pos).newZone =
      (aufsGetBlock sb zmap inode env.behind (pos / sb.sBlocksize) sb.sBlocksize true).newZone := by
  simp only [minixPrepareChunk]
  split
  · rfl
  · rfl

/-- `minix_add_link` finds the name, or fails to read a page, or goes on to prepare a chunk at
`i_size`; once it has the chunk, an entry is appended. -/
theorem minixAddLink_effect (wf : WellFormed order dir content) (hname : ValidName name)
    (hino : ino < 2 ^ 32) (sb : Sb) (env : DirEnv) (zmap : MapBlocks) :
    (name ∈ (dirEntries order dir content).map Prod.fst ∧
      minixAddLink order sb env zmap dir content name ino =
        { ret := some (.error .eexist), dir, content, zmap, newZone := none }) ∨
    (∃ m e, env.readMappingPage m = .error e ∧
      minixAddLink order sb env zmap dir content name ino =
        { ret := some (.error e), dir, content, zmap, newZone := none }) ∨
    (∃ e, (minixPrepareChunk sb env zmap dir dir.iSize).ret = .error e ∧
      minixAddLink order sb env zmap dir content name ino =
        { ret := some (.error e)
          dir := (minixPrepareChunk sb env zmap dir dir.iSize).inode
          content
          zmap := (minixPrepareChunk sb env zmap dir dir.iSize).zmap
          newZone := (minixPrepareChunk sb env zmap dir dir.iSize).newZone }) ∨
    name ∉ (dirEntries order dir content).map Prod.fst ∧
      (minixAddLink order sb env zmap dir content name ino).newZone =
        (minixPrepareChunk sb env zmap dir dir.iSize).newZone ∧
      (minixAddLink order sb env zmap dir content name ino).ret = some env.writeOnePage ∧
      (minixAddLink order sb env zmap dir content name ino).dir.iIno = dir.iIno ∧
      Appended order dir content name ino (minixAddLink order sb env zmap dir content name ino).dir
        (minixAddLink order sb env zmap dir content name ino).content := by
  have hmem : name ∈ (dirEntries order dir content).map Prod.fst ↔
      ∃ g < dir.iSize / AUFS_DIR_SIZE, (slot order content g).1 = name := by
    simp [dirEntries]
  unfold minixAddLink
  rcases minixAddLinkLoop_spec env wf hname (Nat.zero_add _) (Nat.zero_le _) with
    ⟨hex, heq⟩ | ⟨hall, heq⟩ | ⟨m, e, he, heq⟩
  · exact .inl ⟨hmem.mpr hex, by rw [heq]⟩
  · cases hmap : (minixPrepareChunk sb env zmap dir dir.iSize).ret with
    | error e => exact .inr (.inr (.inl ⟨e, rfl, by simp only [heq, hmap]⟩))
    | ok b =>
      obtain ⟨ptr, hinode⟩ := minixPrepareChunk_inode sb env zmap dir dir.iSize
      have hgt : dir.iSize + AUFS_DIR_SIZE > dir.iSize := Nat.lt_add_of_pos_right (by decide)
      refine .inr (.inr (.inr ⟨?_, ?_⟩))
      · rw [hmem]
        rintro ⟨g, hg, hn⟩
        exact hall g (by omega) hg hn
      · simp only [heq, hmap, hinode, dirCommitChunk, if_pos hgt]
        exact ⟨trivial, trivial, rfl, appended_putEntry wf hname hino rfl⟩
  · exact .inr (.inl ⟨m, e, he, by rw [heq]⟩)

/-- A successful `minix_add_link` has appended an entry. -/
theorem minixAddLink_ok (wf : WellFormed order dir content) (hname : ValidName name)
    (hino : ino < 2 ^ 32)
    (hret : (minixAddLink order sb env zmap dir content name ino).ret = some (.ok ())) :
    name ∉ (dirEntries order dir content).map Prod.fst ∧
      (minixAddLink order sb env zmap dir content name ino).dir.iIno = dir.iIno ∧
      Appended order dir content name ino (minixAddLink order sb env zmap dir content name ino).dir
        (minixAddLink order sb env zmap dir content name ino).content := by
  rcases minixAddLink_effect wf hname hino sb env zmap with
    ⟨-, heq⟩ | ⟨m, e, -, heq⟩ | ⟨e, -, heq⟩ | ⟨hmem, -, -, h⟩
  · rw [heq] at hret
    cases hret
  · rw [heq] at hret
    cases hret
  · rw [heq] at hret
    cases hret
  · exact ⟨hmem, h⟩

/-- Where pages can be written, an unsuccessful one has left the entries alone. -/
theorem minixAddLink_kept (wf : WellFormed order dir content) (hname : ValidName name)
    (hino : ino < 2 ^ 32) (hwrite : env.writeOnePage = .ok ())
    (hret : (minixAddLink order sb env zmap dir content name ino).ret ≠ some (.ok ())) :
    (∃ ptr, (minixAddLink order sb env zmap dir content name ino).dir =
      { dir with aiZonePtr := ptr }) ∧
    (minixAddLink order sb env zmap dir content name ino).content = content := by
  rcases minixAddLink_effect wf hname hino sb env zmap with
    ⟨-, heq⟩ | ⟨m, e, -, heq⟩ | ⟨e, -, heq⟩ | ⟨-, -, hok, -⟩
  · rw [heq]
    exact ⟨⟨dir.aiZonePtr, rfl⟩, rfl⟩
  · rw [heq]
    exact ⟨⟨dir.aiZonePtr, rfl⟩, rfl⟩
  · rw [heq]
    exact ⟨minixPrepareChunk_inode sb env zmap dir dir.iSize, rfl⟩
  · exact absurd (hok.trans (by rw [hwrite])) hret

section
variable {config : Configuration} {sb : Sb} (R : sb.Reads config) (H : config.Accepted)
include R H

/-- A chunk below nine zones can be prepared, and only zone pointers of the inode change. -/
theorem minixPrepareChunk_spec (hpos : pos < 9 * config.zoneSize)
    (hread : env.blockRead = .ok ()) (zmap : MapBlocks) (inode : AufsInode) :
    ∃ b ptr, (minixPrepareChunk sb env zmap inode pos).ret = .ok b ∧
      (minixPrepareChunk sb env zmap inode pos).inode = { inode with aiZonePtr := ptr } := by
  have hidx := R.zoneIdx_lt H hpos
  unfold minixPrepareChunk
  rw [R.getBlock_eq H hidx, hread]
  split
  · exact ⟨_, _, rfl, rfl⟩
  · exact ⟨_, _, rfl, rfl⟩

/-- `minix_add_link` finds the name, or appends an entry, or fails to read a page. -/
theorem minixAddLink_cases (wf : WellFormed order dir content) (hname : ValidName name)
    (hino : ino < 2 ^ 32) (hsize : dir.iSize < 9 * config.zoneSize)
    (hread : env.blockRead = .ok ()) (zmap : MapBlocks) :
    (name ∈ (dirEntries order dir content).map Prod.fst ∧
      minixAddLink order sb env zmap dir content name ino =
        { ret := some (.error .eexist), dir, content, zmap, newZone := none }) ∨
    (name ∉ (dirEntries order dir content).map Prod.fst ∧
      (minixAddLink order sb env zmap dir content name ino).ret = some env.writeOnePage ∧
      (minixAddLink order sb env zmap dir content name ino).dir.iIno = dir.iIno ∧
      Appended order dir content name ino
        (minixAddLink order sb env zmap dir content name ino).dir
        (minixAddLink order sb env zmap dir content name ino).content) ∨
    ∃ m e, env.readMappingPage m = .error e ∧
      minixAddLink order sb env zmap dir content name ino =
        { ret := some (.error e), dir, content, zmap, newZone := none } := by
  rcases minixAddLink_effect wf hname hino sb env zmap with
    hexist | hunread | ⟨e, he, -⟩ | ⟨hmem, -, happended⟩
  · exact .inl hexist
  · exact .inr (.inr hunread)
  · obtain ⟨b, ptr, hret, -⟩ := minixPrepareChunk_spec R H hsize hread zmap dir
    cases he.symm.trans hret
  · exact .inr (.inl ⟨hmem, happended⟩)

end

theorem wellFormed_iff : WellFormed order dir content ↔
    dir.iSize % AUFS_DIR_SIZE = 0 ∧ ∀ e ∈ dirEntries order dir content, e.2 ≠ 0 := by
  constructor
  · intro wf
    refine ⟨wf.aligned, fun e he => ?_⟩
    obtain ⟨k, hk, rfl⟩ := mem_dirEntries.mp he
    exact wf.used k hk
  · rintro ⟨hal, hall⟩
    exact ⟨hal, fun k hk => hall _ (mem_dirEntries.mpr ⟨k, hk, rfl⟩)⟩

/-! ## New directories -/

theorem dirEntries_two (hsize : dir.iSize = 2 * AUFS_DIR_SIZE) :
    dirEntries order dir content = [slot order content 0, slot order content 1] := by
  rw [dirEntries, hsize]
  rfl

theorem validName_dot : ValidName (ascii ".") := ⟨by decide, by decide, by decide⟩

theorem validName_dotdot : ValidName (ascii "..") := ⟨by decide, by decide, by decide⟩

/-- A name that was copied with its terminator. -/
theorem nameAt_poke (hname : ValidName name) :
    nameAt (poke m (p + ddeName) (name ++ [0])) p = name := by
  have hpeek : peek (poke m (p + ddeName) (name ++ [0])) (p + ddeName) (name ++ [0]).length =
      name ++ [0] := peek_poke_same
  have hle : name.length ≤ (name ++ [0]).length := by simp
  refine nameAt_eq hname ?_ fun _ => ?_
  · rw [← take_peek hle, hpeek, List.take_left]
  · rw [poke_inside (by simp)]
    simp

/-- `m` after the number and the terminated name of entry `i` were stored. -/
def storedEntry (o : ByteOrder) (m : Mem) (i ino : Nat) (name : List Byte) : Mem :=
  poke (putWord o m (i * AUFS_DIR_SIZE + ddeInode) 4 ino) (i * AUFS_DIR_SIZE + ddeName)
    (name ++ [0])

/-- The kernel reads the number in the order of its host. -/
theorem slot_storedEntry (hname : ValidName name) :
    slot order (storedEntry o m i ino name) i = (name, order.value (o.bytes 4 ino)) := by
  refine Prod.ext (nameAt_poke hname) ?_
  simp only [slot, storedEntry, ddeIno]
  rw [getWord_poke_disjoint (.inl (by simp only [ddeInode, ddeName]; omega)), getWord_putWord_mixed]

theorem slot_storedEntry_ne (hlen : name.length < AUFS_NAME_LEN) (h : k ≠ i) :
    slot order (storedEntry o m i ino name) k = slot order m k := by
  have hlen : name.length < 60 := hlen
  have hsep : k * 64 + 64 ≤ i * 64 ∨ i * 64 + 64 ≤ k * 64 := by omega
  have same : SameSlot (storedEntry o m i ino name) (k * AUFS_DIR_SIZE) m (k * AUFS_DIR_SIZE) := by
    intro a ha
    simp only [AUFS_DIR_SIZE] at ha
    rw [storedEntry, poke_outside, putWord_outside]
    · simp only [ddeInode, AUFS_DIR_SIZE]
      omega
    · simp only [List.length_append, List.length_singleton, ddeName, AUFS_DIR_SIZE]
      omega
  rw [slot, slot, same.nameAt, same.ddeIno]

theorem slots_emptyDirPage (order : ByteOrder) (m : Mem) (hino : ino < 2 ^ 32)
    (hparent : parent < 2 ^ 32) :
    slot order (emptyDirPage order m ino parent) 0 = (ascii ".", ino) ∧
      slot order (emptyDirPage order m ino parent) 1 = (ascii "..", parent) := by
  have hmod : ∀ {n}, n < 2 ^ 32 → n % 256 ^ 4 = n := Nat.mod_eq_of_lt
  have heq : emptyDirPage order m ino parent =
      storedEntry order (storedEntry order (fun a => if a < PAGE_SIZE then 0 else m a) 0 ino
        (ascii ".")) 1 parent (ascii "..") := rfl
  rw [heq, slot_storedEntry_ne (by decide) Nat.zero_ne_one, slot_storedEntry validName_dot,
    slot_storedEntry validName_dotdot, ByteOrder.value_bytes, ByteOrder.value_bytes, hmod hino,
    hmod hparent]
  exact ⟨rfl, rfl⟩

/-- The number that the kernel reads where mkfs stored 1: the two use different byte orders on a
little-endian host. -/
def rawOne (order : ByteOrder) : Nat := order.value (ByteOrder.big.bytes 4 1)

theorem rawOne_ne_zero (order : ByteOrder) : rawOne order ≠ 0 := by
  cases order <;> decide

/-- Whatever the zone held before, the root directory shows `.` and `..`. -/
theorem slots_rootDirContent (order : ByteOrder) (old : Mem) :
    slot order (rootDirContent old) 0 = (ascii ".", rawOne order) ∧
      slot order (rootDirContent old) 1 = (ascii "..", rawOne order) := by
  have heq : rootDirContent old =
      storedEntry .big (storedEntry .big (storedEntry .big old 0 1 (ascii ".")) 1 1 (ascii ".."))
        2 2 (ascii ".badblocks") := rfl
  rw [heq, slot_storedEntry_ne (by decide) (show 0 ≠ 2 by decide),
    slot_storedEntry_ne (by decide) (show 1 ≠ 2 by decide),
    slot_storedEntry_ne (by decide) Nat.zero_ne_one, slot_storedEntry validName_dot,
    slot_storedEntry validName_dotdot]
  exact ⟨rfl, rfl⟩

theorem minixMakeEmpty_ok {inode : AufsInode}
    (h : (minixMakeEmpty order sb env zmap inode content parent).ret = some (.ok ())) :
    env.grabCachePage = .ok () ∧ env.blockRead = .ok () := by
  unfold minixMakeEmpty at h
  cases hgrab : env.grabCachePage with
  | error e => simp [hgrab] at h
  | ok u =>
    cases hread : env.blockRead with
    | ok u => exact ⟨rfl, rfl⟩
    | error e =>
      have hret : ∃ e', (minixPrepareChunk sb env zmap inode 0).ret = .error e' := by
        unfold minixPrepareChunk
        rw [hread]
        cases hmap : (aufsGetBlock sb zmap inode env.behind (0 / sb.sBlocksize) sb.sBlocksize
          true).ret with
        | error e' => exact ⟨e', by simp only [hmap]⟩
        | ok b => exact ⟨e, by simp only [hmap]⟩
      obtain ⟨e', hret⟩ := hret
      simp [hgrab, hret] at h

theorem minixMakeEmpty_newZone {inode : AufsInode} (hgrab : env.grabCachePage = .ok ()) :
    (minixMakeEmpty order sb env zmap inode content parent).newZone =
      (minixPrepareChunk sb env zmap inode 0).newZone := by
  simp only [minixMakeEmpty, hgrab]
  split
  · rfl
  · rfl

theorem minixMakeEmpty_spec {config : Configuration} {sb : Sb} (R : sb.Reads config)
    (H : config.Accepted) (order : ByteOrder) (hgrab : env.grabCachePage = .ok ())
    (hread : env.blockRead = .ok ())
    {inode : AufsInode} (hsize : inode.iSize = 0) (hino : inode.iIno < 2 ^ 32)
    (hparent : parent < 2 ^ 32) (zmap : MapBlocks) (content : Mem) :
    (minixMakeEmpty order sb env zmap inode content parent).ret = some env.writeOnePage ∧
    (minixMakeEmpty order sb env zmap inode content parent).dir.iIno = inode.iIno ∧
    (minixMakeEmpty order sb env zmap inode content parent).dir.iSize = 2 * AUFS_DIR_SIZE ∧
    dirEntries order (minixMakeEmpty order sb env zmap inode content parent).dir
      (minixMakeEmpty order sb env zmap inode content parent).content =
        [(ascii ".", inode.iIno), (ascii "..", parent)] := by
  have hpos : 0 < 9 * config.zoneSize := by
    have := H.zoneSize_ge
    omega
  obtain ⟨b, ptr, hret, hinode⟩ := minixPrepareChunk_spec R H hpos hread zmap inode
  have hgt : 0 + 2 * AUFS_DIR_SIZE > inode.iSize := by
    rw [hsize]
    decide
  have hslots := slots_emptyDirPage order (env.pageCache inode content) hino hparent
  simp only [minixMakeEmpty, hgrab, hret, hinode, dirCommitChunk, if_pos hgt]
  refine ⟨trivial, rfl, Nat.zero_add _, ?_⟩
  rw [dirEntries_two (Nat.zero_add _), hslots.1, hslots.2]

end Aufs
