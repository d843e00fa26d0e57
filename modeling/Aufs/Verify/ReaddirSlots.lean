import Aufs.Verify.Entries

/-! One call of `minix_readdir`, by the byte offsets of the entries it passes to `dir_emit`. The
call goes through the slots of the readable pages from its position on, and `ctx->pos` counts the
entries taken, also where a page was skipped. -/

namespace Aufs
open Bytes

variable {order : ByteOrder} {dir : AufsInode} {content : Mem} {env : DirEnv}

/-- The entries `dir_emit` took, the one it refused, and the state of `minix_readdir`. -/
structure ReaddirAt where
  taken : List Nat
  refused : Option Nat
  pos : Nat
  room : Nat

/-- `minixReaddirPage`, the page starting at byte `base` of the directory. -/
def minixReaddirPageAt (order : ByteOrder) (page : Mem) (base lastByte : Nat) :
    Nat → Nat → ReaddirAt → ReaddirAt
  | 0, _, r => r
  | k + 1, p, r =>
    if p + AUFS_DIR_SIZE ≤ lastByte then
      if ddeIno order page p ≠ 0 then
        match r.room with
        | 0 => { r with refused := some (base + p) }
        | room + 1 =>
          minixReaddirPageAt order page base lastByte k (p + AUFS_DIR_SIZE)
            { r with
              taken := r.taken ++ [base + p]
              pos := r.pos + AUFS_DIR_SIZE
              room := room }
      else
        minixReaddirPageAt order page base lastByte k (p + AUFS_DIR_SIZE)
          { r with pos := r.pos + AUFS_DIR_SIZE }
    else r

/-- `minixReaddirLoop` -/
def minixReaddirLoopAt (order : ByteOrder) (env : DirEnv) (inode : AufsInode) (content : Mem) :
    Nat → Nat → Nat → ReaddirAt → ReaddirAt
  | 0, _, _, r => r
  | k + 1, n, offset, r =>
    match dirGetPage env inode content n with
    | .error _ => minixReaddirLoopAt order env inode content k (n + 1) 0 r
    | .ok page =>
      let r := minixReaddirPageAt order page (n * PAGE_SIZE) (minixLastByte inode n)
        (PAGE_SIZE / AUFS_DIR_SIZE) offset r
      if r.refused.isSome then r
      else minixReaddirLoopAt order env inode content k (n + 1) 0 r

/-- `minixReaddir` -/
def minixReaddirAt (order : ByteOrder) (env : DirEnv) (inode : AufsInode) (content : Mem)
    (pos room : Nat) : ReaddirAt :=
  let pos := (pos + AUFS_DIR_SIZE - 1) / AUFS_DIR_SIZE * AUFS_DIR_SIZE
  let start : ReaddirAt := { taken := [], refused := none, pos, room }
  if pos ≥ inode.iSize then start
  else
    let n := pos / PAGE_SIZE
    minixReaddirLoopAt order env inode content (dirPages inode - n) n (pos % PAGE_SIZE) start

namespace ReaddirAt

/-- The same call by what the entries hold. -/
def emits (order : ByteOrder) (content : Mem) (r : ReaddirAt) : Readdir where
  emitted := r.taken.map fun p => (nameAt content p, ddeIno order content p)
  pos := r.pos
  room := r.room
  full := r.refused.isSome

/-- Passing the entries at `ps` to `dir_emit` until it refuses one. -/
def offer (r : ReaddirAt) (ps : List Nat) : ReaddirAt where
  taken := r.taken ++ ps.take r.room
  refused := ps[r.room]?
  pos := r.pos + min r.room ps.length * AUFS_DIR_SIZE
  room := r.room - ps.length

theorem offer_nil {r : ReaddirAt} (h : r.refused = none) : r.offer [] = r := by
  obtain ⟨taken, refused, pos, room⟩ := r
  cases h
  simp [offer]

theorem offer_cons_zero {r : ReaddirAt} (h : r.room = 0) :
    r.offer (p :: ps) = { r with refused := some p } := by
  simp [offer, h]

theorem offer_cons_succ {r : ReaddirAt} (h : r.room = m + 1) :
    r.offer (p :: ps) =
      { r with
        taken := r.taken ++ [p]
        pos := r.pos + AUFS_DIR_SIZE
        room := m : ReaddirAt }.offer ps := by
  have hmin : min (m + 1) (ps.length + 1) = min m ps.length + 1 := by omega
  simp only [offer, h, List.take_succ_cons, List.getElem?_cons_succ, List.length_cons,
    List.append_assoc, List.singleton_append, hmin, mk.injEq, true_and]
  refine ⟨?_, ?_⟩
  · rw [Nat.succ_mul]
    omega
  · omega

/-- After a refusal nothing more is offered. -/
theorem offer_append_of_lt {r : ReaddirAt} (h : r.room < ps.length) :
    r.offer (ps ++ qs) = r.offer ps := by
  simp only [offer, List.take_append_of_le_length (Nat.le_of_lt h), List.getElem?_append_left h,
    List.length_append, mk.injEq, true_and]
  refine ⟨?_, ?_⟩
  · rw [Nat.min_eq_left (by omega), Nat.min_eq_left (by omega)]
  · omega

theorem offer_append_of_le {r : ReaddirAt} (h : ps.length ≤ r.room) :
    r.offer (ps ++ qs) = (r.offer ps).offer qs := by
  have hmin : min r.room (ps.length + qs.length) =
      min r.room ps.length + min (r.room - ps.length) qs.length := by omega
  simp only [offer, List.take_append, List.getElem?_append_right h, List.length_append, hmin,
    List.append_assoc, Nat.add_mul, Nat.add_assoc, Nat.sub_sub]

theorem offer_refused_isSome {r : ReaddirAt} :
    (r.offer ps).refused.isSome = decide (r.room < ps.length) := by
  rw [Bool.eq_iff_iff, Option.isSome_iff_ne_none, decide_eq_true_eq]
  change ps[r.room]? ≠ none ↔ _
  rw [ne_eq, List.getElem?_eq_none_iff, Nat.not_le]

end ReaddirAt

/-! ## The link to `minixReaddir` -/

/-- What `dir_emit` gets is the name in the slot. -/
theorem peek_strnlen :
    peek m (p + ddeName) (strnlen m (p + ddeName) AUFS_NAME_LEN) = nameAt m p := by
  have hpre : nameAt m p <+: peek m (p + ddeName) AUFS_NAME_LEN := List.takeWhile_prefix _
  have hle : (nameAt m p).length ≤ AUFS_NAME_LEN := by
    simpa using hpre.length_le
  rw [List.prefix_iff_eq_take.mp hpre, take_peek hle]
  rfl

theorem minixReaddirPage_emits {base lastByte i k : Nat}
    (hsame : ∀ i, (i + 1) * AUFS_DIR_SIZE ≤ lastByte →
      SameSlot page (i * AUFS_DIR_SIZE) content (base + i * AUFS_DIR_SIZE)) (r : ReaddirAt) :
    minixReaddirPage order page lastByte k (i * AUFS_DIR_SIZE) (r.emits order content) =
      (minixReaddirPageAt order page base lastByte k (i * AUFS_DIR_SIZE) r).emits
        order content := by
  induction k generalizing i r with
  | zero => rfl
  | succ k ih =>
    rw [minixReaddirPage, minixReaddirPageAt, ← Nat.succ_mul]
    by_cases hlast : (i + 1) * AUFS_DIR_SIZE ≤ lastByte
    · rw [if_pos hlast, if_pos hlast]
      split
      · cases hroom : r.room with
        | zero =>
          have hroom' : (r.emits order content).room = 0 := hroom
          simp only [hroom']
          rfl
        | succ room =>
          have hroom' : (r.emits order content).room = room + 1 := hroom
          simp only [hroom']
          rw [← ih, peek_strnlen, (hsame i hlast).nameAt, (hsame i hlast).ddeIno]
          simp only [ReaddirAt.emits, List.map_append, List.map_cons, List.map_nil]
      · rw [← ih]
        rfl
    · rw [if_neg hlast, if_neg hlast]

/-- Up to the last page, reading the page or the directory is the same. -/
theorem minixReaddirLoop_emits (hal : dir.iSize % AUFS_DIR_SIZE = 0) {n k j : Nat}
    (hk : n + k = dirPages dir) (r : ReaddirAt) :
    minixReaddirLoop order env dir content k n (j * AUFS_DIR_SIZE) (r.emits order content) =
      (minixReaddirLoopAt order env dir content k n (j * AUFS_DIR_SIZE) r).emits
        order content := by
  have hpages := dirPages_eq hal
  induction k generalizing n j r with
  | zero => rfl
  | succ k ih =>
    rw [minixReaddirLoop, minixReaddirLoopAt]
    rcases dirGetPage_cases env dir content n with ⟨e, -, hpage⟩ | hpage
    · rw [hpage]
      have hnext := ih (j := 0) (show n + 1 + k = dirPages dir by omega) r
      rwa [Nat.zero_mul] at hnext
    · have hlast := minixLastByte_eq hal (show n ≤ dir.iSize / AUFS_DIR_SIZE / 64 by omega)
      have hsame : ∀ i, (i + 1) * AUFS_DIR_SIZE ≤ minixLastByte dir n →
          SameSlot (env.page dir content n) (i * AUFS_DIR_SIZE) content
            (n * PAGE_SIZE + i * AUFS_DIR_SIZE) := by
        intro i hi
        rw [hlast] at hi
        have hi := Nat.le_of_mul_le_mul_right hi (by decide)
        have hslot : n * 64 + i < dir.iSize / AUFS_DIR_SIZE := by
          unfold pageSlots at hi
          omega
        have hbase : n * PAGE_SIZE + i * AUFS_DIR_SIZE = (n * 64 + i) * AUFS_DIR_SIZE := by
          simp only [AUFS_DIR_SIZE, PAGE_SIZE]
          omega
        rw [hbase]
        exact page_slot hslot
      rw [hpage]
      simp only [minixReaddirPage_emits hsame r]
      generalize minixReaddirPageAt order (env.page dir content n) (n * PAGE_SIZE)
        (minixLastByte dir n) (PAGE_SIZE / AUFS_DIR_SIZE) (j * AUFS_DIR_SIZE) r = r₁
      have hfull : (r₁.emits order content).full = r₁.refused.isSome := rfl
      rw [hfull]
      split
      · rfl
      · have hnext := ih (j := 0) (show n + 1 + k = dirPages dir by omega) r₁
        rwa [Nat.zero_mul] at hnext

theorem minixReaddir_emits (hal : dir.iSize % AUFS_DIR_SIZE = 0) (pos room : Nat) :
    minixReaddir order env dir content pos room =
      (minixReaddirAt order env dir content pos room).emits order content := by
  simp only [minixReaddir, minixReaddirAt]
  generalize (pos + AUFS_DIR_SIZE - 1) / AUFS_DIR_SIZE = g
  by_cases hend : g * AUFS_DIR_SIZE ≥ dir.iSize
  · rw [if_pos hend, if_pos hend]
    rfl
  · have hoff : g * AUFS_DIR_SIZE % PAGE_SIZE = g % 64 * AUFS_DIR_SIZE := by
      simp only [AUFS_DIR_SIZE, PAGE_SIZE]
      omega
    have hpages : g * AUFS_DIR_SIZE / PAGE_SIZE +
        (dirPages dir - g * AUFS_DIR_SIZE / PAGE_SIZE) = dirPages dir := by
      rw [dirPages_eq hal]
      simp only [AUFS_DIR_SIZE, PAGE_SIZE] at *
      omega
    rw [if_neg hend, if_neg hend, hoff]
    exact minixReaddirLoop_emits hal hpages
      { taken := [], refused := none, pos := g * AUFS_DIR_SIZE, room := room }

/-! ## The slots on readable pages -/

/-- `read_mapping_page` fails on page `n`. -/
def DirEnv.fails (env : DirEnv) (n : Nat) : Bool :=
  match env.readMappingPage n with
  | .error _ => true
  | .ok _ => false

theorem DirEnv.error_of_fails (dir : AufsInode) (content : Mem) (h : env.fails n = true) :
    ∃ e, dirGetPage env dir content n = .error e := by
  unfold fails at h
  split at h
  · exact ⟨_, by rw [dirGetPage, ‹env.readMappingPage n = _›]; rfl⟩
  · cases h

theorem DirEnv.page_of_fails (h : env.fails n = false) :
    dirGetPage env dir content n = .ok (env.page dir content n) := by
  unfold fails at h
  split at h
  · cases h
  · rw [dirGetPage, ‹env.readMappingPage n = _›]
    rfl

/-- The slots from `g` on whose page is readable. -/
def readableSlots (fails : Nat → Bool) (dir : AufsInode) (g : Nat) : List Nat :=
  (List.range' g (dir.iSize / AUFS_DIR_SIZE - g)).filter fun i => !fails (i / 64)

variable {fails : Nat → Bool}

theorem range'_take : (List.range' g m).take k = List.range' g (min k m) := by
  rcases Nat.le_total k m with h | h
  · rw [Nat.min_eq_left h, List.take_range'_of_length_ge h]
  · rw [Nat.min_eq_right h, List.take_range'_of_length_le h]

/-- The slots from slot `j` of a page on are the rest of the page and the next pages. -/
theorem range'_page {n j : Nat} (hj : j ≤ pageSlots dir n) :
    List.range' (n * 64 + j) (dir.iSize / AUFS_DIR_SIZE - (n * 64 + j)) =
      List.range' (n * 64 + j) (pageSlots dir n - j) ++
        List.range' ((n + 1) * 64) (dir.iSize / AUFS_DIR_SIZE - (n + 1) * 64) := by
  by_cases hfull : pageSlots dir n = 64
  · have hnext : (n + 1) * 64 = n * 64 + j + (pageSlots dir n - j) := by omega
    rw [hnext, List.range'_append_1]
    congr 1
    unfold pageSlots at *
    omega
  · have h0 : dir.iSize / AUFS_DIR_SIZE - (n + 1) * 64 = 0 := by
      unfold pageSlots at hfull
      omega
    rw [h0, List.range'_zero, List.append_nil]
    congr 1
    unfold pageSlots at *
    omega

theorem readableSlots_page {n j : Nat} (hj : j ≤ pageSlots dir n) :
    readableSlots fails dir (n * 64 + j) =
      (if fails n then [] else List.range' (n * 64 + j) (pageSlots dir n - j)) ++
        readableSlots fails dir ((n + 1) * 64) := by
  have hpage : ∀ i ∈ List.range' (n * 64 + j) (pageSlots dir n - j), i / 64 = n := by
    intro i hi
    have hi := List.mem_range'_1.mp hi
    unfold pageSlots at *
    omega
  rw [readableSlots, range'_page hj, List.filter_append]
  congr 1
  split
  · apply List.filter_eq_nil_iff.mpr
    intro i hi
    simp only [hpage i hi, ‹fails n = true›, Bool.not_true, Bool.false_eq_true, not_false_eq_true]
  · apply List.filter_eq_self.mpr
    intro i hi
    have hread : fails n = false := Bool.eq_false_iff.mpr ‹_›
    rw [hpage i hi, hread]
    rfl

/-- The inner loop over a page whose first `e` slots are in use, from slot `i` on. -/
theorem minixReaddirPageAt_eq {base e i k : Nat}
    (hused : ∀ i < e, ddeIno order page (i * AUFS_DIR_SIZE) ≠ 0) (hk : e ≤ i + k)
    (r : ReaddirAt) (hr : r.refused = none) :
    minixReaddirPageAt order page base (e * AUFS_DIR_SIZE) k (i * AUFS_DIR_SIZE) r =
      r.offer ((List.range' i (e - i)).map fun s => base + s * AUFS_DIR_SIZE) := by
  induction k generalizing i r with
  | zero =>
    have h0 : e - i = 0 := by omega
    rw [h0]
    exact (ReaddirAt.offer_nil hr).symm
  | succ k ih =>
    rw [minixReaddirPageAt, ← Nat.succ_mul]
    by_cases hi : i < e
    · have hle : i.succ * AUFS_DIR_SIZE ≤ e * AUFS_DIR_SIZE := Nat.mul_le_mul_right _ hi
      have hcount : e - i = e - i.succ + 1 := by omega
      rw [if_pos hle, if_pos (hused i hi), hcount, List.range'_succ, List.map_cons]
      cases hroom : r.room with
      | zero =>
        rw [ReaddirAt.offer_cons_zero hroom, hroom]
      | succ room =>
        rw [ReaddirAt.offer_cons_succ hroom]
        exact ih (by omega) _ hr
    · have hgt : ¬i.succ * AUFS_DIR_SIZE ≤ e * AUFS_DIR_SIZE := by
        simp only [AUFS_DIR_SIZE]
        omega
      have h0 : e - i = 0 := by omega
      rw [if_neg hgt, h0]
      exact (ReaddirAt.offer_nil hr).symm

/-- The outer loop from slot `j` of page `n` on. -/
theorem minixReaddirLoopAt_eq (wf : WellFormed order dir content) {n k j : Nat}
    (hk : n + k = dirPages dir) (hj : j ≤ pageSlots dir n) (r : ReaddirAt)
    (hr : r.refused = none) :
    minixReaddirLoopAt order env dir content k n (j * AUFS_DIR_SIZE) r =
      r.offer ((readableSlots env.fails dir (n * 64 + j)).map (· * AUFS_DIR_SIZE)) := by
  have hpages := dirPages_eq wf.aligned
  induction k generalizing n j r with
  | zero =>
    have h0 : dir.iSize / AUFS_DIR_SIZE - (n * 64 + j) = 0 := by omega
    rw [readableSlots, h0]
    exact (ReaddirAt.offer_nil hr).symm
  | succ k ih =>
    have hnext : ∀ r : ReaddirAt, r.refused = none →
        minixReaddirLoopAt order env dir content k (n + 1) 0 r =
          r.offer ((readableSlots env.fails dir ((n + 1) * 64)).map (· * AUFS_DIR_SIZE)) := by
      intro r hr
      have hrest := ih (j := 0) (show n + 1 + k = dirPages dir by omega) (Nat.zero_le _) r hr
      rwa [Nat.zero_mul, Nat.add_zero] at hrest
    rw [minixReaddirLoopAt, readableSlots_page hj]
    cases hfail : env.fails n with
    | true =>
      obtain ⟨e, hpage⟩ := DirEnv.error_of_fails dir content hfail
      rw [hpage, if_pos rfl, List.nil_append]
      exact hnext r hr
    | false =>
      have hused : ∀ i < pageSlots dir n,
          ddeIno order (env.page dir content n) (i * AUFS_DIR_SIZE) ≠ 0 :=
        fun i hi => pageSlots_used wf hi
      have hle : pageSlots dir n ≤ 64 := Nat.min_le_left ..
      have hoffsets : (List.range' j (pageSlots dir n - j)).map
          (fun s => n * PAGE_SIZE + s * AUFS_DIR_SIZE) =
          (List.range' (n * 64 + j) (pageSlots dir n - j)).map (· * AUFS_DIR_SIZE) := by
        rw [← List.map_add_range', List.map_map]
        apply List.map_congr_left
        intro i _
        simp only [Function.comp_apply, AUFS_DIR_SIZE, PAGE_SIZE]
        omega
      rw [DirEnv.page_of_fails hfail, if_neg Bool.false_ne_true, List.map_append, ← hoffsets]
      simp only [minixLastByte_eq wf.aligned (show n ≤ dir.iSize / AUFS_DIR_SIZE / 64 by omega),
        slotsPerPage]
      rw [minixReaddirPageAt_eq hused (by omega) r hr, ReaddirAt.offer_refused_isSome]
      by_cases hroom : r.room < ((List.range' j (pageSlots dir n - j)).map
          fun s => n * PAGE_SIZE + s * AUFS_DIR_SIZE).length
      · rw [decide_eq_true hroom, if_pos rfl, ReaddirAt.offer_append_of_lt hroom]
      · -- the page is done; the next one starts at its first slot
        have hnone : (r.offer ((List.range' j (pageSlots dir n - j)).map
            fun s => n * PAGE_SIZE + s * AUFS_DIR_SIZE)).refused = none :=
          List.getElem?_eq_none_iff.mpr (Nat.le_of_not_lt hroom)
        rw [decide_eq_false hroom, if_neg Bool.false_ne_true,
          ReaddirAt.offer_append_of_le (Nat.le_of_not_lt hroom)]
        exact hnext _ hnone

/-- A call at slot `g` passes the readable slots from `g` on to `dir_emit`. -/
theorem minixReaddirAt_eq (wf : WellFormed order dir content)
    (hg : g ≤ dir.iSize / AUFS_DIR_SIZE) (room : Nat) :
    minixReaddirAt order env dir content (g * AUFS_DIR_SIZE) room =
      { taken := [], refused := none, pos := g * AUFS_DIR_SIZE, room := room : ReaddirAt }.offer
        ((readableSlots env.fails dir g).map (· * AUFS_DIR_SIZE)) := by
  have hal := wf.aligned
  have halign : (g * AUFS_DIR_SIZE + AUFS_DIR_SIZE - 1) / AUFS_DIR_SIZE = g := by
    simp only [AUFS_DIR_SIZE]
    omega
  simp only [minixReaddirAt, halign]
  by_cases hend : g * AUFS_DIR_SIZE ≥ dir.iSize
  · have h0 : dir.iSize / AUFS_DIR_SIZE - g = 0 := by
      simp only [AUFS_DIR_SIZE] at *
      omega
    rw [if_pos hend, readableSlots, h0]
    exact (ReaddirAt.offer_nil rfl).symm
  · have hpages := dirPages_eq hal
    have hn : g * AUFS_DIR_SIZE / PAGE_SIZE = g / 64 := by
      simp only [AUFS_DIR_SIZE, PAGE_SIZE]
      omega
    have hoff : g * AUFS_DIR_SIZE % PAGE_SIZE = g % 64 * AUFS_DIR_SIZE := by
      simp only [AUFS_DIR_SIZE, PAGE_SIZE]
      omega
    have hlt : g < dir.iSize / AUFS_DIR_SIZE := by
      simp only [AUFS_DIR_SIZE] at *
      omega
    have hj : g % 64 ≤ pageSlots dir (g / 64) := by
      unfold pageSlots
      omega
    have hg64 : g / 64 * 64 + g % 64 = g := by omega
    rw [if_neg hend, hn, hoff, minixReaddirLoopAt_eq wf (by omega) hj _ rfl, hg64]

end Aufs
