import Aufs.Verify.ByteOrder

/-! Listing a directory some pages of which cannot be read. `minix_readdir` goes on with the next
page but leaves `ctx->pos` where it is, so behind a skipped page the position no longer is that of
the entry; the next call starts too early and emits entries again. It never starts too late. -/

namespace Aufs
open Bytes

variable {order : ByteOrder} {dir : AufsInode} {content : Mem} {fails : Nat → Bool}

/-- What a call of `minix_readdir` runs into: the page cache, and how many entries `dir_emit`
takes. -/
structure ReaddirCall where
  env : DirEnv
  room : Nat

/-- A call at `ctx->pos = pos`, the pages in `fails` being unreadable. -/
inductive ReaddirStep (order : ByteOrder) (dir : AufsInode) (content : Mem) (fails : Nat → Bool) :
    Nat → ReaddirCall → ReaddirAt → Nat → Prop
  | call {pos c} : (∀ n, c.env.fails n = fails n) →
    ReaddirStep order dir content fails pos c (minixReaddirAt order c.env dir content pos c.room)
      (minixReaddirAt order c.env dir content pos c.room).pos

/-- The offsets of the entries a history has emitted. -/
def takenIn (hist : List (ReaddirCall × ReaddirAt)) : List Nat := hist.flatMap fun c => c.2.taken

theorem takenIn_snoc : takenIn (hist ++ [(c, out)]) = takenIn hist ++ out.taken := by
  rw [takenIn, takenIn, List.flatMap_append, List.flatMap_singleton]

/-- No slot is emitted more than once, over any number of calls from position 0 on. -/
def EmitsOnce (order : ByteOrder) (dir : AufsInode) (content : Mem) (fails : Nat → Bool) : Prop :=
  ∀ hist pos, Trace (ReaddirStep order dir content fails) 0 hist pos → (takenIn hist).Nodup

/-- A call that emits nothing finds every slot on a readable page emitted. A call that `dir_emit`
stopped says nothing about the end of the directory, whatever it has emitted. -/
def EmitsAll (order : ByteOrder) (dir : AufsInode) (content : Mem) (fails : Nat → Bool) : Prop :=
  ∀ hist pos c out pos', Trace (ReaddirStep order dir content fails) 0 hist pos →
    ReaddirStep order dir content fails pos c out pos' → out.taken = [] → out.refused = none →
    ∀ i < dir.iSize / AUFS_DIR_SIZE, fails (i / 64) = false → i * AUFS_DIR_SIZE ∈ takenIn hist

/-- A call that `dir_emit` stopped leaves `ctx->pos` at the entry that was refused. -/
def StopsAtRefused (order : ByteOrder) (dir : AufsInode) (content : Mem) (fails : Nat → Bool) :
    Prop :=
  ∀ hist pos c out pos' p, Trace (ReaddirStep order dir content fails) 0 hist pos →
    ReaddirStep order dir content fails pos c out pos' → out.refused = some p → pos' = p

/-- No readable page follows an unreadable one. -/
def UnreadableTail (dir : AufsInode) (fails : Nat → Bool) : Prop :=
  ∀ u v, u < v → v < dirPages dir → fails u = true → fails v = true

theorem ReaddirStep.spec (wf : WellFormed order dir content) (hg : g ≤ dir.iSize / AUFS_DIR_SIZE)
    (h : ReaddirStep order dir content fails (g * AUFS_DIR_SIZE) c out pos') :
    out.taken = ((readableSlots fails dir g).take c.room).map (· * AUFS_DIR_SIZE) ∧
      out.refused = (readableSlots fails dir g)[c.room]?.map (· * AUFS_DIR_SIZE) ∧
      pos' = (g + min c.room (readableSlots fails dir g).length) * AUFS_DIR_SIZE := by
  cases h with
  | call hfails =>
    obtain rfl : c.env.fails = fails := funext hfails
    rw [minixReaddirAt_eq wf hg]
    refine ⟨?_, ?_, ?_⟩
    · simp only [ReaddirAt.offer, List.nil_append, List.map_take]
    · simp only [ReaddirAt.offer, List.getElem?_map]
    · simp only [ReaddirAt.offer, List.length_map, Nat.add_mul]

theorem readableSlots_length_le (fails : Nat → Bool) (dir : AufsInode) (g : Nat) :
    (readableSlots fails dir g).length ≤ dir.iSize / AUFS_DIR_SIZE - g := by
  have hle := List.length_filter_le (fun i => !fails (i / 64))
    (List.range' g (dir.iSize / AUFS_DIR_SIZE - g))
  rwa [List.length_range'] at hle

theorem mem_readableSlots : i ∈ readableSlots fails dir g ↔
    g ≤ i ∧ i < dir.iSize / AUFS_DIR_SIZE ∧ fails (i / 64) = false := by
  rw [readableSlots, List.mem_filter, List.mem_range'_1, Bool.not_eq_true']
  constructor
  · rintro ⟨⟨hle, hlt⟩, hread⟩
    exact ⟨hle, by omega, hread⟩
  · rintro ⟨hle, hlt, hread⟩
    exact ⟨⟨hle, by omega⟩, hread⟩

/-! ## Nothing is left out -/

/-- The first `k` kept numbers from `g` on reach at least up to `g + k`. -/
theorem mem_take_filter_range' {p : Nat → Bool} (hi : i ∈ (List.range' g m).filter p)
    (hk : i < g + k) : i ∈ ((List.range' g m).filter p).take k := by
  induction m generalizing g k with
  | zero => cases hi
  | succ m ih =>
    rw [List.range'_succ] at hi ⊢
    by_cases hg : p g = true
    · rw [List.filter_cons_of_pos hg] at hi ⊢
      cases k with
      | zero =>
        have hge : g ≤ i := by
          rcases List.mem_cons.mp hi with rfl | hi
          · exact Nat.le_refl _
          · exact Nat.le_of_succ_le (List.mem_range'_1.mp (List.mem_of_mem_filter hi)).1
        omega
      | succ k =>
        rw [List.take_succ_cons]
        rcases List.mem_cons.mp hi with rfl | hi
        · exact List.mem_cons_self
        · exact List.mem_cons_of_mem _ (ih hi (by omega))
    · rw [List.filter_cons_of_neg hg] at hi ⊢
      exact ih hi (by omega)

/-- The position is a slot, and every readable slot in front of it has been emitted. -/
def Behind (dir : AufsInode) (fails : Nat → Bool) (hist : List (ReaddirCall × ReaddirAt))
    (pos : Nat) : Prop :=
  ∃ g, pos = g * AUFS_DIR_SIZE ∧ g ≤ dir.iSize / AUFS_DIR_SIZE ∧
    ∀ i < g, fails (i / 64) = false → i * AUFS_DIR_SIZE ∈ takenIn hist

theorem ReaddirStep.behind (wf : WellFormed order dir content) (h : Behind dir fails hist pos)
    (hs : ReaddirStep order dir content fails pos c out pos') :
    Behind dir fails (hist ++ [(c, out)]) pos' := by
  obtain ⟨g, rfl, hg, hfront⟩ := h
  obtain ⟨htaken, -, hpos⟩ := hs.spec wf hg
  have hlen := readableSlots_length_le fails dir g
  refine ⟨_, hpos, by omega, ?_⟩
  intro i hi hread
  rw [takenIn_snoc]
  by_cases hig : i < g
  · exact List.mem_append_left _ (hfront i hig hread)
  · have hmem : i ∈ readableSlots fails dir g := mem_readableSlots.mpr ⟨by omega, by omega, hread⟩
    have htake : i ∈ (readableSlots fails dir g).take c.room :=
      mem_take_filter_range' hmem (by omega)
    rw [htaken]
    exact List.mem_append_right _ (List.mem_map_of_mem htake)

theorem readdir_behind (wf : WellFormed order dir content)
    (t : Trace (ReaddirStep order dir content fails) 0 hist pos) : Behind dir fails hist pos := by
  induction t with
  | nil =>
    refine ⟨0, (Nat.zero_mul _).symm, Nat.zero_le _, ?_⟩
    intro i hi
    cases hi
  | snoc _ hs ih => exact hs.behind wf ih

/-- Whatever pages fail, no readable slot is left out. -/
theorem readdir_emitsAll (wf : WellFormed order dir content) :
    EmitsAll order dir content fails := by
  intro hist pos c out pos' t hs htaken hrefused i hi hread
  obtain ⟨g, rfl, hg, hfront⟩ := readdir_behind wf t
  obtain ⟨htaken', hrefused', -⟩ := hs.spec wf hg
  by_cases hig : i < g
  · exact hfront i hig hread
  · have hmem : i ∈ readableSlots fails dir g := mem_readableSlots.mpr ⟨by omega, hi, hread⟩
    rw [htaken] at htaken'
    rw [hrefused] at hrefused'
    have hall : (readableSlots fails dir g).length ≤ c.room := by
      simpa using hrefused'.symm
    have hnil : readableSlots fails dir g = [] := by
      rw [List.take_of_length_le hall] at htaken'
      exact List.map_eq_nil_iff.mp htaken'.symm
    rw [hnil] at hmem
    cases hmem

/-! ## Unreadable pages at the end -/

/-- A filter that rejects everything from some number on keeps a range. -/
theorem filter_range'_prefix {p : Nat → Bool}
    (h : ∀ i j, i ≤ j → j < g + m → p i = false → p j = false) :
    (List.range' g m).filter p = List.range' g ((List.range' g m).filter p).length := by
  induction m generalizing g with
  | zero => rfl
  | succ m ih =>
    rw [List.range'_succ]
    by_cases hg : p g = true
    · rw [List.filter_cons_of_pos hg, List.length_cons, List.range'_succ,
        ← ih fun i j hij hj => h i j hij (by omega)]
    · have hnil : (List.range' (g + 1) m).filter p = [] := by
        apply List.filter_eq_nil_iff.mpr
        intro j hj
        have hj := List.mem_range'_1.mp hj
        rw [h g j (by omega) (by omega) (Bool.eq_false_iff.mpr hg)]
        exact Bool.false_ne_true
      rw [List.filter_cons_of_neg hg, hnil]
      rfl

theorem UnreadableTail.readableSlots_eq (H : UnreadableTail dir fails)
    (hal : dir.iSize % AUFS_DIR_SIZE = 0) (hg : g ≤ dir.iSize / AUFS_DIR_SIZE) :
    readableSlots fails dir g = List.range' g (readableSlots fails dir g).length := by
  have hpages := dirPages_eq hal
  refine filter_range'_prefix ?_
  intro i j hij hj hi
  rw [Bool.not_eq_false'] at hi ⊢
  rcases Nat.lt_or_ge (i / 64) (j / 64) with hlt | hge
  · exact H _ _ hlt (by omega) hi
  · rwa [show j / 64 = i / 64 by omega]

/-- The listing stands at slot `g` and has emitted the slots in front of it. -/
def InOrder (dir : AufsInode) (hist : List (ReaddirCall × ReaddirAt)) (pos : Nat) : Prop :=
  ∃ g, pos = g * AUFS_DIR_SIZE ∧ g ≤ dir.iSize / AUFS_DIR_SIZE ∧
    takenIn hist = (List.range' 0 g).map (· * AUFS_DIR_SIZE)

theorem ReaddirStep.inOrder (wf : WellFormed order dir content) (H : UnreadableTail dir fails)
    (h : InOrder dir hist pos) (hs : ReaddirStep order dir content fails pos c out pos') :
    InOrder dir (hist ++ [(c, out)]) pos' := by
  obtain ⟨g, rfl, hg, htaken⟩ := h
  obtain ⟨hout, -, hpos⟩ := hs.spec wf hg
  have hlen := readableSlots_length_le fails dir g
  refine ⟨_, hpos, by omega, ?_⟩
  rw [takenIn_snoc, htaken, hout, H.readableSlots_eq wf.aligned hg, range'_take,
    List.length_range', ← List.map_append]
  congr 1
  rw [← List.range'_append_1, Nat.zero_add]

theorem readdir_inOrder (wf : WellFormed order dir content) (H : UnreadableTail dir fails)
    (t : Trace (ReaddirStep order dir content fails) 0 hist pos) : InOrder dir hist pos := by
  induction t with
  | nil => exact ⟨0, (Nat.zero_mul _).symm, Nat.zero_le _, rfl⟩
  | snoc _ hs ih => exact hs.inOrder wf H ih

theorem mul_dirSize_injective : Function.Injective fun i => i * AUFS_DIR_SIZE := by
  intro a b hab
  exact Nat.eq_of_mul_eq_mul_right (by decide) hab

theorem UnreadableTail.emitsOnce (wf : WellFormed order dir content)
    (H : UnreadableTail dir fails) : EmitsOnce order dir content fails := by
  intro hist pos t
  obtain ⟨g, -, -, htaken⟩ := readdir_inOrder wf H t
  rw [htaken]
  exact List.Nodup.map mul_dirSize_injective List.nodup_range'

theorem UnreadableTail.stopsAtRefused (wf : WellFormed order dir content)
    (H : UnreadableTail dir fails) : StopsAtRefused order dir content fails := by
  intro hist pos c out pos' p t hs hp
  obtain ⟨g, rfl, hg, -⟩ := readdir_inOrder wf H t
  obtain ⟨-, hrefused, hpos⟩ := hs.spec wf hg
  rw [hp, H.readableSlots_eq wf.aligned hg] at hrefused
  rcases Nat.lt_or_ge c.room (readableSlots fails dir g).length with hroom | hroom
  · rw [List.getElem?_range' hroom, Nat.one_mul] at hrefused
    rw [hpos, Nat.min_eq_left (Nat.le_of_lt hroom)]
    exact (Option.some.inj hrefused).symm
  · rw [List.getElem?_eq_none_iff.mpr (by rwa [List.length_range'])] at hrefused
    cases hrefused

/-! ## A readable page behind an unreadable one -/

/-- A page cache that has the given pages unreadable. -/
def failingEnv (fails : Nat → Bool) : DirEnv :=
  { quietEnv with readMappingPage := fun n => if fails n then .error .eio else .ok () }

theorem failingEnv_fails (fails : Nat → Bool) (n : Nat) : (failingEnv fails).fails n = fails n := by
  rw [DirEnv.fails, failingEnv]
  cases hn : fails n with
  | true => simp only [hn, if_true]
  | false => simp only [hn, Bool.false_eq_true, if_false]

/-- The readable slots in front of page `v`. -/
def readableBefore (fails : Nat → Bool) (v : Nat) : List Nat :=
  (List.range' 0 (v * 64)).filter fun i => !fails (i / 64)

theorem readableBefore_append (hv : v * 64 < dir.iSize / AUFS_DIR_SIZE) (hread : fails v = false) :
    ∃ rest, readableSlots fails dir 0 = readableBefore fails v ++ v * 64 :: rest := by
  obtain ⟨m, hm⟩ := Nat.exists_eq_add_of_lt hv
  refine ⟨(List.range' (v * 64 + 1) m).filter fun i => !fails (i / 64), ?_⟩
  rw [readableSlots, Nat.sub_zero, hm, Nat.add_assoc, ← List.range'_append_1,
    List.filter_append, Nat.zero_add, List.range'_succ, List.filter_cons_of_pos]
  · rfl
  · rw [Nat.mul_div_cancel _ (by decide), hread]
    rfl

theorem readableBefore_length_lt (huv : u < v) (hu : fails u = true) :
    (readableBefore fails v).length < v * 64 := by
  have hlt : (readableBefore fails v).length < (List.range' 0 (v * 64)).length := by
    apply List.length_filter_lt_length_iff_exists.mpr
    refine ⟨u * 64, List.mem_range'_1.mpr ⟨Nat.zero_le _, by omega⟩, ?_⟩
    rw [Nat.mul_div_cancel _ (by decide), hu]
    exact Bool.false_ne_true
  rwa [List.length_range'] at hlt

/-- The first slot of a readable page behind an unreadable one has fewer readable slots in front of
it than slots. -/
theorem exists_gap (wf : WellFormed order dir content) (h : ¬UnreadableTail dir fails) :
    ∃ v rest, v * 64 < dir.iSize / AUFS_DIR_SIZE ∧ fails v = false ∧
      (readableBefore fails v).length < v * 64 ∧
      readableSlots fails dir 0 = readableBefore fails v ++ v * 64 :: rest := by
  have hpages := dirPages_eq wf.aligned
  unfold UnreadableTail at h
  push Not at h
  obtain ⟨u, v, huv, hv, hu, hread⟩ := h
  have hread := Bool.eq_false_iff.mpr hread
  have hslot : v * 64 < dir.iSize / AUFS_DIR_SIZE := by omega
  obtain ⟨rest, hslots⟩ := readableBefore_append hslot hread
  exact ⟨v, rest, hslot, hread, readableBefore_length_lt huv hu, hslots⟩

/-- The call that has room for `k` entries, from slot `g` on. -/
theorem exists_readdirStep (wf : WellFormed order dir content) (fails : Nat → Bool)
    (hg : g ≤ dir.iSize / AUFS_DIR_SIZE) (k : Nat) : ∃ c out,
      ReaddirStep order dir content fails (g * AUFS_DIR_SIZE) c out
        ((g + min k (readableSlots fails dir g).length) * AUFS_DIR_SIZE) ∧
      out.taken = ((readableSlots fails dir g).take k).map (· * AUFS_DIR_SIZE) ∧
      out.refused = (readableSlots fails dir g)[k]?.map (· * AUFS_DIR_SIZE) := by
  have hs : ReaddirStep order dir content fails (g * AUFS_DIR_SIZE)
      { env := failingEnv fails, room := k } _ _ := .call (failingEnv_fails fails)
  obtain ⟨htaken, hrefused, hpos⟩ := hs.spec wf hg
  rw [hpos] at hs
  exact ⟨_, _, hs, htaken, hrefused⟩

/-- With room for the readable slots in front of page `v` and its first slot, the next call starts
at or before that slot and emits it again. -/
theorem EmitsOnce.unreadableTail (wf : WellFormed order dir content)
    (H : EmitsOnce order dir content fails) : UnreadableTail dir fails := by
  by_contra hgap
  obtain ⟨v, rest, hslot, hread, hshort, hslots⟩ := exists_gap wf hgap
  obtain ⟨c₁, out₁, hs₁, htaken₁, -⟩ :=
    exists_readdirStep wf fails (Nat.zero_le _) ((readableBefore fails v).length + 1)
  have hcount : min ((readableBefore fails v).length + 1) (readableSlots fails dir 0).length =
      (readableBefore fails v).length + 1 := by
    rw [hslots, List.length_append, List.length_cons]
    omega
  rw [hcount, Nat.zero_add, Nat.zero_mul] at hs₁
  obtain ⟨c₂, out₂, hs₂, htaken₂, -⟩ := exists_readdirStep wf fails
    (show (readableBefore fails v).length + 1 ≤ dir.iSize / AUFS_DIR_SIZE by omega)
    (dir.iSize / AUFS_DIR_SIZE)
  have hfirst : v * 64 * AUFS_DIR_SIZE ∈ out₁.taken := by
    rw [htaken₁, hslots, List.take_append, List.take_of_length_le (Nat.le_succ _),
      Nat.add_sub_cancel_left]
    exact List.mem_map_of_mem (List.mem_append_right _ List.mem_cons_self)
  have hsecond : v * 64 * AUFS_DIR_SIZE ∈ out₂.taken := by
    have hmem : v * 64 ∈ readableSlots fails dir ((readableBefore fails v).length + 1) := by
      refine mem_readableSlots.mpr ⟨hshort, hslot, ?_⟩
      rwa [Nat.mul_div_cancel _ (by decide)]
    rw [htaken₂, List.take_of_length_le (Nat.le_trans (readableSlots_length_le ..) (Nat.sub_le ..))]
    exact List.mem_map_of_mem hmem
  have hnodup := H _ _ ((Trace.single hs₁).snoc hs₂)
  rw [takenIn_snoc, List.nodup_append] at hnodup
  have hfirst' : v * 64 * AUFS_DIR_SIZE ∈ takenIn [(c₁, out₁)] := by
    rwa [takenIn, List.flatMap_singleton]
  exact hnodup.2.2 _ hfirst' _ hsecond rfl

/-- With room for the readable slots in front of page `v`, its first entry is refused, and the
position is that number of slots. -/
theorem StopsAtRefused.unreadableTail (wf : WellFormed order dir content)
    (H : StopsAtRefused order dir content fails) : UnreadableTail dir fails := by
  by_contra hgap
  obtain ⟨v, rest, -, -, hshort, hslots⟩ := exists_gap wf hgap
  obtain ⟨c, out, hs, -, hrefused⟩ :=
    exists_readdirStep wf fails (Nat.zero_le _) (readableBefore fails v).length
  rw [hslots, List.getElem?_append_right (Nat.le_refl _), Nat.sub_self, List.getElem?_cons_zero,
    Option.map_some] at hrefused
  rw [hslots, List.length_append, Nat.min_eq_left (Nat.le_add_right ..), Nat.zero_add,
    Nat.zero_mul] at hs
  exact Nat.ne_of_lt hshort (mul_dirSize_injective (H _ _ _ _ _ _ .nil hs hrefused))

/-- **Listing with unreadable pages**. No readable slot is ever left out. That none is emitted
twice, and that `ctx->pos` names the entry refused, hold exactly if no readable page follows an
unreadable one. -/
theorem readdir_errors_iff (wf : WellFormed order dir content) :
    (EmitsOnce order dir content fails ∧ EmitsAll order dir content fails ∧
      StopsAtRefused order dir content fails ↔ UnreadableTail dir fails) ∧
    EmitsAll order dir content fails ∧
    (EmitsOnce order dir content fails ↔ UnreadableTail dir fails) ∧
    (StopsAtRefused order dir content fails ↔ UnreadableTail dir fails) := by
  have hall : EmitsAll order dir content fails := readdir_emitsAll wf
  refine ⟨⟨?_, ?_⟩, hall, ⟨?_, ?_⟩, ?_, ?_⟩
  · rintro ⟨honce, -, -⟩
    exact honce.unreadableTail wf
  · intro H
    exact ⟨H.emitsOnce wf, hall, H.stopsAtRefused wf⟩
  · intro honce
    exact honce.unreadableTail wf
  · intro H
    exact H.emitsOnce wf
  · intro hstop
    exact hstop.unreadableTail wf
  · intro H
    exact H.stopsAtRefused wf

/-- Two full pages, every byte of them set. -/
theorem wellFormed_twoPages : WellFormed .little (dirOfSize 1 128) fun _ => 1 := by
  refine ⟨by decide, ?_⟩
  intro k _
  change ddeIno .little (fun _ => 1) (k * AUFS_DIR_SIZE) ≠ 0
  have hany : ddeIno .little (fun _ => 1) (k * AUFS_DIR_SIZE) = ddeIno .little (fun _ => 1) 0 := by
    rw [ddeIno, ddeIno, getWord, getWord]
    congr 1
  rw [hany]
  decide

/-- The first page cannot be read. Two calls that take one entry each both emit the first entry of
the second page. -/
theorem secondPage_emitted_twice :
    WellFormed .little (dirOfSize 1 128) (fun _ => 1) ∧
      (minixReaddirAt .little (failingEnv (· == 0)) (dirOfSize 1 128) (fun _ => 1) 0 1).taken =
        [4096] ∧
      (minixReaddirAt .little (failingEnv (· == 0)) (dirOfSize 1 128) (fun _ => 1) 0 1).refused =
        some 4160 ∧
      (minixReaddirAt .little (failingEnv (· == 0)) (dirOfSize 1 128) (fun _ => 1) 0 1).pos = 64 ∧
      (minixReaddirAt .little (failingEnv (· == 0)) (dirOfSize 1 128) (fun _ => 1) 64 1).taken =
        [4096] ∧
      ¬(EmitsOnce .little (dirOfSize 1 128) (fun _ => 1) (· == 0) ∧
        EmitsAll .little (dirOfSize 1 128) (fun _ => 1) (· == 0) ∧
        StopsAtRefused .little (dirOfSize 1 128) (fun _ => 1) (· == 0)) := by
  have wf := wellFormed_twoPages
  refine ⟨wf, by decide, by decide, by decide, by decide, ?_⟩
  rintro ⟨honce, -, -⟩
  have hread := honce.unreadableTail wf 0 1 (by decide) (by decide) rfl
  cases hread

/-- The last of two pages cannot be read. -/
theorem firstPage_listed_once :
    EmitsOnce .little (dirOfSize 1 128) (fun _ => 1) (· == 1) := by
  refine ((readdir_errors_iff wellFormed_twoPages).1.mpr ?_).1
  intro u v huv hv hu
  have hu : u = 1 := beq_iff_eq.mp hu
  have hpages : dirPages (dirOfSize 1 128) = 2 := rfl
  omega

end Aufs
