import Aufs.Lib.Trace
import Aufs.Lib.WriteBack
import Aufs.Mkfs.BlocksCache
import Aufs.Verify.Layout

/-! The block cache of mkfs is transparent: whatever is fetched, edited and released in between, the
device ends up with every edit applied in order.

The invariant (`BlocksCache.Inv`) is about the device with all edits so far applied, the view. A
cached block holds its part of the view, the device may differ from the view only in cached blocks,
and the block behind a handle is cached. `Sync` may therefore drop any block without a handle once
it is written. -/

namespace Aufs
open Bytes

/-! ## The map -/

theorem mapInsert_perm (no addr : Nat) (cache : List (Nat × Nat)) :
    (mapInsert no addr cache).Perm ((no, addr) :: cache) := by
  induction cache with
  | nil => exact .refl _
  | cons e rest ih =>
    rw [mapInsert]
    split
    · exact .refl _
    · exact (ih.cons e).trans (.swap _ _ _)

theorem mapFind_some (h : mapFind cache no = some addr) : (no, addr) ∈ cache := by
  obtain ⟨e, he, rfl⟩ := Option.map_eq_some_iff.mp h
  have hfound : (e.1 == no) = true := List.find?_some (p := fun e : Nat × Nat => e.1 == no) he
  have hno : e.1 = no := beq_iff_eq.mp hfound
  exact hno ▸ List.mem_of_find?_eq_some he

theorem mapFind_none (h : mapFind cache no = none) : no ∉ cache.map Prod.fst := by
  intro hmem
  obtain ⟨e, he, rfl⟩ := List.mem_map.mp hmem
  have hne := List.find?_eq_none.mp (Option.map_eq_none_iff.mp h) e he
  exact hne (beq_self_eq_true _)

/-- A number stands in the map once. -/
theorem entry_unique {cache : List (Nat × Nat)} (hnd : (cache.map Prod.fst).Nodup) (he : e ∈ cache)
    (he' : e' ∈ cache) (h : e.1 = e'.1) : e = e' := List.inj_on_of_nodup_map hnd he he' h

/-! ## Blocks of the device -/

theorem div_block {size : Nat} (hk : k < size) : (no * size + k) / size = no :=
  (Nat.div_eq_iff (Nat.zero_lt_of_lt hk)).mpr (by omega)

/-- A write inside block `no` stays there. -/
theorem poke_other_block {size : Nat} (hsize : 0 < size) (h : off + bytes.length ≤ size)
    (hne : a / size ≠ no) : poke m (no * size + off) bytes a = m a := by
  apply poke_outside
  by_contra hcon
  exact hne ((Nat.div_eq_iff hsize).mpr (by omega))

theorem poke_shift (h : ∀ k < size, m' k = m (base + k)) (hk : k < size) :
    poke m' off bytes k = poke m (base + off) bytes (base + k) := by
  have hcond : (base + off ≤ base + k ∧ base + k < base + off + bytes.length) ↔
      (off ≤ k ∧ k < off + bytes.length) := by omega
  have hsub : base + k - (base + off) = k - off := by omega
  simp only [poke, hcond, hsub, h k hk]

section
variable {config : Configuration}

theorem writeBlock_self (hbs : 0 < config.blockSize) (hdev : dev.HasBlock config.blockSize no)
    (ha : a / config.blockSize = no) :
    (writeBlock config dev no block).bytes a = block (a - no * config.blockSize) := by
  have hbounds := (Nat.div_eq_iff hbs).mp ha
  have hend : (no + 1) * config.blockSize = no * config.blockSize + config.blockSize :=
    Nat.succ_mul ..
  have hlt : (no + 1) * config.blockSize ≤ dev.size := hdev
  exact if_pos ⟨by omega, by omega, by omega⟩

theorem writeBlock_other (hbs : 0 < config.blockSize) (ha : a / config.blockSize ≠ no) :
    (writeBlock config dev no block).bytes a = dev.bytes a := by
  refine if_neg fun h => ha ((Nat.div_eq_iff hbs).mpr ?_)
  have hend : (no + 1) * config.blockSize = no * config.blockSize + config.blockSize :=
    Nat.succ_mul ..
  omega

/-! ## The invariant -/

/-- The cache `s` of a device whose view, the device with all edits applied, is `view`. -/
structure BlocksCache.Inv (config : Configuration) (s : BlocksCache) (view : Device) : Prop where
  size : s.device.size = view.size
  keys : (s.mCache.map Prod.fst).Nodup
  number : ∀ e ∈ s.mCache, (s.blocks e.2).mNumber = e.1
  onDevice : ∀ e ∈ s.mCache, view.HasBlock config.blockSize e.1
  content : ∀ e ∈ s.mCache, ∀ k < config.blockSize,
    (s.blocks e.2).mData k = view.bytes (e.1 * config.blockSize + k)
  stale : StaleOnly (· / config.blockSize) s.device.bytes view.bytes (s.mCache.map Prod.fst)
  held : ∀ addr ∈ s.handles, ((s.blocks addr).mNumber, addr) ∈ s.mCache
  fresh : ∀ e ∈ s.mCache, e.2 < s.next

namespace BlocksCache

variable {s : BlocksCache} {view : Device}

/-- `Sync` brings the device up to date and drops the blocks without a handle. -/
theorem syncLoop_eq {blocks : Nat → Block} {handles : List Nat} {rest : List (Nat × Nat)}
    (hbs : 0 < config.blockSize) (hsize : dev.size = view.size)
    (hstale : StaleOnly (· / config.blockSize) dev.bytes view.bytes (rest.map Prod.fst))
    (hnumber : ∀ e ∈ rest, (blocks e.2).mNumber = e.1)
    (hdev : ∀ e ∈ rest, view.HasBlock config.blockSize e.1)
    (hcontent : ∀ e ∈ rest, ∀ k < config.blockSize,
      (blocks e.2).mData k = view.bytes (e.1 * config.blockSize + k)) :
    syncLoop config blocks handles rest dev = (view, rest.filter fun e => e.2 ∈ handles) := by
  induction rest generalizing dev with
  | nil =>
    obtain ⟨size, bytes⟩ := dev
    cases hsize
    cases hstale.eq_view
    rfl
  | cons e rest ih =>
    have hno := hnumber e List.mem_cons_self
    have hhas : dev.HasBlock config.blockSize e.1 := by
      rw [Device.HasBlock, hsize]
      exact hdev e List.mem_cons_self
    have hwritten : StaleOnly (· / config.blockSize)
        (writeBlock config dev e.1 (blocks e.2).mData).bytes view.bytes (rest.map Prod.fst) := by
      refine hstale.writeBack (fun a ha => ?_) fun a ha => writeBlock_other hbs ha
      have hbounds := (Nat.div_eq_iff hbs).mp ha
      rw [writeBlock_self hbs hhas ha, hcontent e List.mem_cons_self _ (by omega)]
      congr 1
      omega
    have hrest : syncLoop config blocks handles rest
        (writeBlock config dev e.1 (blocks e.2).mData) =
          (view, rest.filter fun e => e.2 ∈ handles) :=
      ih hsize hwritten (fun e' he' => hnumber e' (List.mem_cons_of_mem _ he'))
        (fun e' he' => hdev e' (List.mem_cons_of_mem _ he'))
        fun e' he' => hcontent e' (List.mem_cons_of_mem _ he')
    rw [syncLoop, hno, hrest, List.filter_cons]
    simp only [decide_eq_true_eq]

theorem Inv.sync_eq (hbs : 0 < config.blockSize) (h : Inv config s view) :
    s.sync config =
      { s with device := view, mCache := s.mCache.filter fun e => e.2 ∈ s.handles } := by
  rw [sync, syncLoop_eq hbs h.size h.stale h.number h.onDevice h.content]

theorem Inv.sync (hbs : 0 < config.blockSize) (h : Inv config s view) :
    Inv config (s.sync config) view := by
  have hmem : ∀ e, e ∈ s.mCache.filter (fun e => e.2 ∈ s.handles) → e ∈ s.mCache :=
    fun e he => (List.mem_filter.mp he).1
  rw [h.sync_eq hbs]
  refine ⟨rfl, ?_, fun e he => h.number e (hmem e he), fun e he => h.onDevice e (hmem e he),
    fun e he => h.content e (hmem e he), .refl, fun addr haddr => ?_,
    fun e he => h.fresh e (hmem e he)⟩
  · exact h.keys.sublist (List.filter_sublist.map _)
  · exact List.mem_filter.mpr ⟨h.held addr haddr, decide_eq_true haddr⟩

/-- A handle more for a cached block. -/
theorem Inv.hold (h : Inv config s view) (he : (no, addr) ∈ s.mCache) :
    Inv config { s with handles := addr :: s.handles } view := by
  refine { h with held := fun addr' haddr' => ?_ }
  rcases List.mem_cons.mp haddr' with rfl | haddr'
  · exact (h.number _ he) ▸ he
  · exact h.held addr' haddr'

theorem Inv.release (h : Inv config s view) : Inv config (s.release addr) view :=
  { h with held := fun addr' haddr' => h.held addr' (List.mem_of_mem_erase haddr') }

/-- What `GetBlock` does for a block that is not cached, once there is room. -/
def fetch (env : MkfsEnv) (config : Configuration) (s : BlocksCache) (no : Nat) : BlocksCache :=
  { s with
    mCache := mapInsert no s.next s.mCache
    blocks := Function.update s.blocks s.next
      { mNumber := no, mData := readBlock env config s.device no }
    next := s.next + 1
    handles := s.next :: s.handles }

theorem Inv.fetch (h : Inv config s view)
    (hno : no ∉ s.mCache.map Prod.fst) (hdev : view.HasBlock config.blockSize no) :
    Inv config (s.fetch env config no) view := by
  have hperm := mapInsert_perm no s.next s.mCache
  have hmem : ∀ e, e ∈ (s.fetch env config no).mCache ↔ e = (no, s.next) ∨ e ∈ s.mCache :=
    fun e => hperm.mem_iff.trans List.mem_cons
  -- The blocks that were there are at other addresses.
  have hold : ∀ addr, addr < s.next → (s.fetch env config no).blocks addr = s.blocks addr :=
    fun addr haddr => Function.update_of_ne (Nat.ne_of_lt haddr) ..
  have hnew : (s.fetch env config no).blocks s.next =
      { mNumber := no, mData := readBlock env config s.device no } := Function.update_self ..
  refine ⟨h.size, ?_, fun e he => ?_, fun e he => ?_, fun e he k hk => ?_, ?_, fun addr haddr => ?_,
    fun e he => ?_⟩
  · exact ((hperm.map _).nodup_iff).mpr (List.nodup_cons.mpr ⟨hno, h.keys⟩)
  · rcases (hmem e).mp he with rfl | he
    · rw [hnew]
    · rw [hold e.2 (h.fresh e he), h.number e he]
  · rcases (hmem e).mp he with rfl | he
    · exact hdev
    · exact h.onDevice e he
  · rcases (hmem e).mp he with rfl | he
    · -- The block was not cached, so the device is up to date there.
      have hend : (no + 1) * config.blockSize = no * config.blockSize + config.blockSize :=
        Nat.succ_mul ..
      have hlt : (no + 1) * config.blockSize ≤ view.size := hdev
      have hsize := h.size
      rw [hnew]
      simp only [readBlock]
      rw [if_pos hk, if_pos (by omega)]
      refine h.stale _ ?_
      beta_reduce
      rwa [div_block hk]
    · rw [hold e.2 (h.fresh e he)]
      exact h.content e he k hk
  · refine h.stale.mono fun k hk => ?_
    exact (hperm.map Prod.fst).mem_iff.mpr (List.mem_cons_of_mem _ hk)
  · rcases List.mem_cons.mp haddr with rfl | haddr
    · rw [hnew]
      exact (hmem _).mpr (.inl rfl)
    · have he := h.held addr haddr
      rw [hold addr (h.fresh _ he)]
      exact (hmem _).mpr (.inr he)
  · rcases (hmem e).mp he with rfl | he
    · exact Nat.lt_succ_self _
    · exact Nat.lt_succ_of_lt (h.fresh e he)

/-- `GetBlock` hands out the cached block of the number, cached before or now. -/
theorem Inv.getBlock (env : MkfsEnv) (hbs : 0 < config.blockSize) (h : Inv config s view)
    (hdev : view.HasBlock config.blockSize no) :
    Inv config (s.getBlock env config no).2 view ∧
      (no, (s.getBlock env config no).1) ∈ (s.getBlock env config no).2.mCache ∧
      ∀ n, n ∈ (s.getBlock env config no).2.mCache.map Prod.fst →
        n = no ∨ n ∈ s.mCache.map Prod.fst := by
  rw [BlocksCache.getBlock]
  cases hfind : mapFind s.mCache no with
  | some addr =>
    have he := mapFind_some hfind
    exact ⟨h.hold he, he, fun n hn => .inr hn⟩
  | none =>
    have hno := mapFind_none hfind
    -- The cache may have been brought up to date in between.
    obtain ⟨s', hs', hinv, hsub⟩ : ∃ s', s' = (if config.blockSize * s.mCache.length > thresholdSize
        then s.sync config else s) ∧ Inv config s' view ∧
        s'.mCache.map Prod.fst ⊆ s.mCache.map Prod.fst := by
      refine ⟨_, rfl, ?_⟩
      split
      · refine ⟨h.sync hbs, ?_⟩
        rw [h.sync_eq hbs]
        exact (List.filter_sublist.map _).subset
      · exact ⟨h, fun _ hn => hn⟩
    simp only [← hs']
    refine ⟨hinv.fetch (fun hmem => hno (hsub hmem)) hdev, ?_, fun n hn => ?_⟩
    · exact (mapInsert_perm ..).mem_iff.mpr List.mem_cons_self
    · rcases List.mem_cons.mp (((mapInsert_perm ..).map Prod.fst).mem_iff.mp hn) with hn | hn
      · exact .inl hn
      · exact .inr (hsub hn)

/-- An edit through a handle is an edit of the view. -/
theorem Inv.edit (hbs : 0 < config.blockSize) (h : Inv config s view) (haddr : addr ∈ s.handles)
    (hoff : off + bytes.length ≤ config.blockSize) :
    Inv config (s.edit addr off bytes)
      (view.write ((s.blocks addr).mNumber * config.blockSize + off) bytes) := by
  have he := h.held addr haddr
  generalize hnumber : (s.blocks addr).mNumber = no at he ⊢
  have hnum : ∀ addr', ((s.edit addr off bytes).blocks addr').mNumber =
      (s.blocks addr').mNumber := by
    intro addr'
    simp only [BlocksCache.edit]
    by_cases heq : addr' = addr
    · rw [heq, Function.update_self]
    · rw [Function.update_of_ne heq]
  have hother : ∀ a, a / config.blockSize ≠ no →
      (view.write (no * config.blockSize + off) bytes).bytes a = view.bytes a :=
    fun a ha => poke_other_block hbs hoff ha
  refine ⟨h.size, h.keys, fun e he' => (hnum e.2).trans (h.number e he'), h.onDevice,
    fun e he' k hk => ?_, ?_, fun addr' haddr' => ?_, h.fresh⟩
  · by_cases heq : e.2 = addr
    · -- The edited block: its number is that of the handle.
      have hno : e.1 = no := by rw [← h.number e he', heq, hnumber]
      have hdata : ((s.edit addr off bytes).blocks e.2).mData =
          poke (s.blocks addr).mData off bytes := by
        simp only [BlocksCache.edit]
        rw [heq, Function.update_self]
      rw [hdata, hno]
      exact poke_shift (heq ▸ hno ▸ h.content e he') hk
    · have hne : (e.1 * config.blockSize + k) / config.blockSize ≠ no := by
        rw [div_block hk]
        intro hno
        exact heq (congrArg Prod.snd (entry_unique h.keys he' he hno))
      have hdata : (s.edit addr off bytes).blocks e.2 = s.blocks e.2 :=
        Function.update_of_ne heq ..
      rw [hdata, hother _ hne]
      exact h.content e he' k hk
  · exact h.stale.modify (List.mem_map.mpr ⟨_, he, rfl⟩) hother
  · rw [hnum]
    exact h.held addr' haddr'

end BlocksCache

end

/-! ## Runs -/

/-- What the users of the cache do. -/
inductive BlockOp where
  | getBlock (no : Nat)
  | edit (addr off : Nat) (bytes : List Byte)
  | copy (addr : Nat)
  | release (addr : Nat)
  | sync

/-- One operation: fetching a block of the device, editing the data of a block, copying or dropping
a handle, each through a handle that is held, and `Sync`. A fetch gives the address of the block, an
edit the number of the block it was made in. -/
inductive BlockStep (env : MkfsEnv) (config : Configuration) :
    BlocksCache → BlockOp → Option Nat → BlocksCache → Prop
  | getBlock {s : BlocksCache} : s.device.HasBlock config.blockSize no →
    BlockStep env config s (.getBlock no) (some (s.getBlock env config no).1)
      (s.getBlock env config no).2
  | edit {s : BlocksCache} : addr ∈ s.handles → off + bytes.length ≤ config.blockSize →
    BlockStep env config s (.edit addr off bytes) (some (s.blocks addr).mNumber)
      (s.edit addr off bytes)
  | copy {s : BlocksCache} : addr ∈ s.handles →
    BlockStep env config s (.copy addr) none (s.copy addr)
  | release {s : BlocksCache} : addr ∈ s.handles →
    BlockStep env config s (.release addr) none (s.release addr)
  | sync {s : BlocksCache} : BlockStep env config s .sync none (s.sync config)

/-- The device with an edit applied to it. -/
def editDevice (config : Configuration) (dev : Device) : BlockOp × Option Nat → Device
  | (.edit _ off bytes, some no) => dev.write (no * config.blockSize + off) bytes
  | _ => dev

/-- The device with every edit of a history applied in order. -/
def edited (config : Configuration) (dev : Device) (hist : List (BlockOp × Option Nat)) : Device :=
  hist.foldl (editDevice config) dev

/-- The numbers of the blocks that a history has fetched. -/
def fetched (hist : List (BlockOp × Option Nat)) : List Nat :=
  hist.filterMap fun e =>
    match e.1 with
    | .getBlock no => some no
    | _ => none

/-- The cache after a history: its view is the edited device, and neither the cache nor an edit has
to do with a block that was never fetched. -/
structure BlocksCache.Follows (config : Configuration) (dev : Device)
    (hist : List (BlockOp × Option Nat)) (s : BlocksCache) : Prop where
  inv : s.Inv config (edited config dev hist)
  size : (edited config dev hist).size = dev.size
  keys : s.mCache.map Prod.fst ⊆ fetched hist
  kept : StaleOnly (· / config.blockSize) (edited config dev hist).bytes dev.bytes (fetched hist)

section
variable {config : Configuration} {dev : Device} {hist : List (BlockOp × Option Nat)}

theorem edited_append :
    edited config dev (hist ++ [e]) = editDevice config (edited config dev hist) e := by
  rw [edited, List.foldl_append]
  rfl

theorem fetched_append (e : BlockOp × Option Nat) :
    fetched (hist ++ [e]) = fetched hist ++ fetched [e] := List.filterMap_append

theorem fetched_subset (e : BlockOp × Option Nat) : fetched hist ⊆ fetched (hist ++ [e]) := by
  rw [fetched_append]
  exact List.subset_append_left ..

variable {s s' : BlocksCache}

/-- An operation that edits nothing. -/
theorem BlocksCache.Follows.unedited (h : s.Follows config dev hist) (e : BlockOp × Option Nat)
    (hview : editDevice config (edited config dev hist) e = edited config dev hist)
    (hinv : s'.Inv config (edited config dev hist))
    (hkeys : ∀ n ∈ s'.mCache.map Prod.fst, n ∈ fetched [e] ∨ n ∈ s.mCache.map Prod.fst) :
    s'.Follows config dev (hist ++ [e]) := by
  rw [← hview, ← edited_append] at hinv
  refine ⟨hinv, ?_, fun n hn => ?_, ?_⟩
  · rw [edited_append, hview]
    exact h.size
  · rcases hkeys n hn with hn | hn
    · rw [fetched_append]
      exact List.mem_append_right _ hn
    · exact fetched_subset e (h.keys hn)
  · rw [edited_append, hview]
    exact h.kept.mono (fetched_subset e)

theorem BlockStep.follows (hbs : 0 < config.blockSize) (h : s.Follows config dev hist)
    (hstep : BlockStep env config s op out s') : s'.Follows config dev (hist ++ [(op, out)]) := by
  have hhas : ∀ no, s.device.HasBlock config.blockSize no →
      (edited config dev hist).HasBlock config.blockSize no := by
    intro no hdev
    rwa [Device.HasBlock, ← h.inv.size]
  cases hstep with
  | getBlock hdev =>
    obtain ⟨hinv, -, hnew⟩ := h.inv.getBlock env hbs (hhas _ hdev)
    exact h.unedited _ rfl hinv fun n hn => (hnew n hn).imp_left List.mem_singleton.mpr
  | edit haddr hoff =>
    have hmem := h.keys (List.mem_map_of_mem (h.inv.held _ haddr))
    refine ⟨?_, ?_, fun n hn => fetched_subset _ (h.keys hn), fun a ha => ?_⟩
    · rw [edited_append]
      exact h.inv.edit hbs haddr hoff
    · rw [edited_append]
      exact h.size
    · rw [edited_append]
      refine (poke_other_block hbs hoff fun heq => ha ?_).trans
        (h.kept a fun hfetched => ha (fetched_subset _ hfetched))
      beta_reduce
      rw [heq]
      exact fetched_subset _ hmem
  | copy haddr =>
    exact h.unedited _ rfl (h.inv.hold (h.inv.held _ haddr)) fun n hn => .inr hn
  | release => exact h.unedited _ rfl h.inv.release fun n hn => .inr hn
  | sync =>
    refine h.unedited _ rfl (h.inv.sync hbs) fun n hn => .inr ?_
    rw [h.inv.sync_eq hbs] at hn
    exact (List.filter_sublist.map _).subset hn

theorem follows_make (config : Configuration) (dev : Device) :
    (BlocksCache.make dev).Follows config dev [] := by
  refine ⟨⟨rfl, List.nodup_nil, ?_, ?_, ?_, .refl, ?_, ?_⟩, rfl, List.nil_subset _, .refl⟩
  all_goals
    intro e he
    cases he

theorem run_follows (hbs : 0 < config.blockSize)
    (t : Trace (BlockStep env config) (BlocksCache.make dev) hist s) : s.Follows config dev hist :=
  Trace.simulation (fun _ => trivial) (follows_make config dev)
    (fun (_ : True) h hstep => hstep.follows hbs h) t

/-- After any number of operations: the handles for one block number point to one block; `GetBlock`
hands out a block with all edits of it so far; the device that the destructor leaves is the device
of the start with every edit applied in order; and a block that was never fetched is what it was, on
the device now and on the one that the destructor leaves. -/
theorem blocks_cache_transparent {env : MkfsEnv} {config : Configuration} {dev : Device}
    {hist : List (BlockOp × Option Nat)} {s : BlocksCache} (hbs : 0 < config.blockSize)
    (run : Trace (BlockStep env config) (BlocksCache.make dev) hist s) :
    (∀ addr ∈ s.handles, ∀ addr' ∈ s.handles,
      (s.blocks addr).mNumber = (s.blocks addr').mNumber → addr = addr') ∧
    (∀ no, dev.HasBlock config.blockSize no →
      let block := (s.getBlock env config no).2.blocks (s.getBlock env config no).1
      block.mNumber = no ∧ ∀ k < config.blockSize,
        block.mData k = (edited config dev hist).bytes (no * config.blockSize + k)) ∧
    s.destroy config = edited config dev hist ∧
    ∀ no, no ∉ fetched hist → ∀ k < config.blockSize,
      s.device.bytes (no * config.blockSize + k) = dev.bytes (no * config.blockSize + k) ∧
      (s.destroy config).bytes (no * config.blockSize + k) =
        dev.bytes (no * config.blockSize + k) := by
  have h := run_follows hbs run
  have hdestroy : s.destroy config = edited config dev hist := by
    rw [BlocksCache.destroy, h.inv.sync_eq hbs]
  refine ⟨fun addr haddr addr' haddr' hno => ?_, fun no hdev => ?_, hdestroy, fun no hno k hk => ?_⟩
  · have heq := entry_unique h.inv.keys (h.inv.held addr haddr) (h.inv.held addr' haddr') hno
    exact congrArg Prod.snd heq
  · have hhas : (edited config dev hist).HasBlock config.blockSize no := by
      rwa [Device.HasBlock, h.size]
    obtain ⟨hinv, hmem, -⟩ := h.inv.getBlock env hbs hhas
    exact ⟨hinv.number _ hmem, hinv.content _ hmem⟩
  · have hdiv : (no * config.blockSize + k) / config.blockSize = no := div_block hk
    have hkept : (edited config dev hist).bytes (no * config.blockSize + k) =
        dev.bytes (no * config.blockSize + k) := h.kept _ (by beta_reduce; rwa [hdiv])
    refine ⟨(h.inv.stale _ ?_).trans hkept, by rwa [hdestroy]⟩
    beta_reduce
    rw [hdiv]
    exact fun hmem => hno (h.keys hmem)

end

/-- A block is fetched, edited and released. -/
theorem blocks_cache_transparent_edit :
    ∃ hist s,
      Trace (BlockStep rootEnv eightZones) (BlocksCache.make (blankDevice (2 ^ 20))) hist s ∧
      s.handles = [] ∧ s.destroy eightZones = edited eightZones (blankDevice (2 ^ 20)) hist ∧
      (s.destroy eightZones).bytes 4101 = 7 := by
  let s₁ := ((BlocksCache.make (blankDevice (2 ^ 20))).getBlock rootEnv eightZones 1).2
  have hfetch : Trace (BlockStep rootEnv eightZones) (BlocksCache.make (blankDevice (2 ^ 20)))
      [(.getBlock 1, some 0)] s₁ :=
    Trace.single (.getBlock (show (1 + 1) * 4096 ≤ 2 ^ 20 by decide))
  have hedit : BlockStep rootEnv eightZones s₁ (.edit 0 5 [7]) (some 1) (s₁.edit 0 5 [7]) :=
    .edit (show 0 ∈ [0] by decide) (show 5 + 1 ≤ 4096 by decide)
  have hrelease := (hfetch.snoc hedit).snoc (.release (show 0 ∈ [0] by decide))
  obtain ⟨-, -, hdestroy, -⟩ :=
    blocks_cache_transparent (show 0 < eightZones.blockSize by decide) hrelease
  refine ⟨_, _, hrelease, rfl, hdestroy, ?_⟩
  rw [hdestroy]
  decide

end Aufs
