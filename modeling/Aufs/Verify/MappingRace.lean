import Aufs.Lib.Trace
import Aufs.Verify.GetBlock
import Aufs.Verify.Layout

/-! Several calls of `aufs_get_block` on one inode and one zone pointer. Nothing keeps a second call
from testing the pointer between another call's test and its store; `concurrent_mapping` says what
holds in runs where that does not happen, and `zone_lost` shows a run where it does. -/

namespace Aufs
open Bytes Word

/-! ## The steps of a call -/

/-- `block_idx` of `aufs_get_block`, for a buffer of the file system's block size. -/
def Sb.blockIdx (sb : Sb) (iblock : Nat) : Nat :=
  u32 (iblock / (u32 sb.sbi.asbZoneSize / sb.sBlocksize))

def Sb.blockOffset (sb : Sb) (iblock : Nat) : Nat :=
  u32 (iblock % (u32 sb.sbi.asbZoneSize / sb.sBlocksize))

/-- A file block that needs zone pointer `idx`. -/
structure ZoneBlock (sb : Sb) (idx : Fin ZONE_PTR_IN_INODE_NUM) where
  iblock : Nat
  blockIdx_eq : sb.blockIdx iblock = idx

/-- What a call does next: test the pointer, call `aufs_new_zone`, store its result, map the buffer.
In the end the buffer is mapped to a block. -/
inductive MapCall where
  | test
  | newZone
  | store (zone : Int)
  | map
  | done (block : Nat)
  deriving DecidableEq, Repr

/-- The call has seen a zero pointer and not yet stored a zone. -/
def MapCall.Allocating : MapCall → Prop
  | newZone | store _ => True
  | _ => False

/-- The inode, the zone map and `n` calls. -/
structure MapRace (n : Nat) where
  inode : AufsInode
  zmap : MapBlocks
  calls : Fin n → MapCall

section
variable {sb : Sb} {idx : Fin ZONE_PTR_IN_INODE_NUM} {n : Nat}

/-- One atomic step of call `c`. No allocation fails. -/
inductive RaceStep (sb : Sb) (idx : Fin ZONE_PTR_IN_INODE_NUM) (blocks : Fin n → ZoneBlock sb idx) :
    MapRace n → Fin n → Unit → MapRace n → Prop
  | testZero {s c} : s.calls c = .test → s.inode.aiZonePtr idx = 0 →
    RaceStep sb idx blocks s c () { s with calls := Function.update s.calls c .newZone }
  | testSet {s c} : s.calls c = .test → s.inode.aiZonePtr idx ≠ 0 →
    RaceStep sb idx blocks s c () { s with calls := Function.update s.calls c .map }
  | newZone {s c} : s.calls c = .newZone → (aufsNewZone sb s.zmap).1 ≠ 0 →
    RaceStep sb idx blocks s c ()
      { s with
        zmap := (aufsNewZone sb s.zmap).2
        calls := Function.update s.calls c (.store (aufsNewZone sb s.zmap).1) }
  | store {s c zone} : s.calls c = .store zone →
    RaceStep sb idx blocks s c ()
      { s with
        inode := s.inode.setZonePtr idx (u64OfInt zone)
        calls := Function.update s.calls c .map }
  | map {s c} : s.calls c = .map →
    RaceStep sb idx blocks s c ()
      { s with
        calls := Function.update s.calls c
          (.done (u64 (sb.blockOffset (blocks c).iblock + s.inode.aiZonePtr idx))) }

/-- The condition: a call that finds the pointer zero finds no other call between its test and its
store. -/
def RaceStep.Undisturbed (idx : Fin ZONE_PTR_IN_INODE_NUM) (s : MapRace n) (c : Fin n) : Prop :=
  s.calls c = .test → s.inode.aiZonePtr idx = 0 → ∀ c', ¬(s.calls c').Allocating

def GuardedStep (sb : Sb) (idx : Fin ZONE_PTR_IN_INODE_NUM) (blocks : Fin n → ZoneBlock sb idx)
    (s : MapRace n) (c : Fin n) (u : Unit) (s' : MapRace n) : Prop :=
  RaceStep sb idx blocks s c u s' ∧ RaceStep.Undisturbed idx s c

/-- A zone that a call gets is the one of the lowest clear bit. -/
theorem aufsNewZone_ne_zero {zmap : MapBlocks} (hret : (aufsNewZone sb zmap).1 ≠ 0) :
    (∃ k, Takes (8 * sb.sBlocksize) sb.sbi.asbZoneMapBlocks zmap (aufsNewZone sb zmap).2 k) ∧
      u64OfInt (aufsNewZone sb zmap).1 ≠ 0 := by
  rcases aufsNewZone_takes sb zmap with ⟨-, heq⟩ | ⟨k, zmap', zone, htakes, heq, hge, hlt⟩
  · rw [heq] at hret
    exact absurd rfl hret
  · rw [heq] at hret ⊢
    exact ⟨⟨k, htakes⟩, u64OfInt_ne_zero hret hge hlt⟩

/-- Where the calls stand together: the pointer is zero and at most one call is about to allocate;
that call has a zone to store; the pointer is set and nobody will set it again. -/
inductive RacePhase (sb : Sb) (idx : Fin ZONE_PTR_IN_INODE_NUM) (blocks : Fin n → ZoneBlock sb idx)
    (s₀ s : MapRace n) : Prop
  | unset : s₀.inode.aiZonePtr idx = 0 → s.inode.aiZonePtr idx = 0 → s.zmap = s₀.zmap →
    (∀ c, s.calls c = .test ∨ s.calls c = .newZone) →
    (∀ c c', s.calls c = .newZone → s.calls c' = .newZone → c = c') →
    RacePhase sb idx blocks s₀ s
  | pending (c : Fin n) (zone : Int) : s₀.inode.aiZonePtr idx = 0 → s.inode.aiZonePtr idx = 0 →
    (∃ k, Takes (8 * sb.sBlocksize) sb.sbi.asbZoneMapBlocks s₀.zmap s.zmap k) →
    s.calls c = .store zone → u64OfInt zone ≠ 0 → (∀ c', c' ≠ c → s.calls c' = .test) →
    RacePhase sb idx blocks s₀ s
  | set : s.inode.aiZonePtr idx ≠ 0 →
    (s₀.inode.aiZonePtr idx = 0 →
      ∃ k, Takes (8 * sb.sBlocksize) sb.sbi.asbZoneMapBlocks s₀.zmap s.zmap k) →
    (s₀.inode.aiZonePtr idx ≠ 0 → s.zmap = s₀.zmap) →
    (∀ c, s.calls c = .test ∨ s.calls c = .map ∨ s.calls c =
      .done (u64 (sb.blockOffset (blocks c).iblock + s.inode.aiZonePtr idx))) →
    RacePhase sb idx blocks s₀ s

variable {blocks : Fin n → ZoneBlock sb idx} {s₀ s s' : MapRace n} {c : Fin n}

/-- What held of every call's state still holds after one of them has moved on. -/
theorem calls_update {Q : Fin n → MapCall → Prop} {calls : Fin n → MapCall} {call : MapCall}
    (h : ∀ c', c' ≠ c → Q c' (calls c')) (hc : Q c call) (c' : Fin n) :
    Q c' (Function.update calls c call c') := by
  by_cases hcc : c' = c
  · rw [hcc, Function.update_self]
    exact hc
  · rw [Function.update_of_ne hcc]
    exact h c' hcc

theorem RacePhase.step (h : RacePhase sb idx blocks s₀ s) (hs : RaceStep sb idx blocks s c u s')
    (hund : RaceStep.Undisturbed idx s c) : RacePhase sb idx blocks s₀ s' := by
  cases h with
  | unset hzero hptr hzmap hcalls hone =>
    cases hs with
    | testZero htest _ =>
      have hall : ∀ c', s.calls c' = .test := by
        intro c'
        rcases hcalls c' with h | h
        · exact h
        · exact absurd (by rw [h]; trivial) (hund htest hptr c')
      have hnew : ∀ c', Function.update s.calls c .newZone c' = .newZone → c' = c := by
        intro c' h'
        by_contra hne
        rw [Function.update_of_ne hne, hall c'] at h'
        cases h'
      exact .unset hzero hptr hzmap
        (calls_update (Q := fun _ call => call = .test ∨ call = .newZone)
          (fun c' _ => .inl (hall c')) (.inr rfl))
        fun c₁ c₂ h₁ h₂ => (hnew c₁ h₁).trans (hnew c₂ h₂).symm
    | testSet _ hset => exact absurd hptr hset
    | newZone hnew hret =>
      obtain ⟨htakes, hne⟩ := aufsNewZone_ne_zero hret
      rw [hzmap] at htakes
      refine .pending c (aufsNewZone sb s.zmap).1 hzero hptr ?_ (Function.update_self ..) hne ?_
      · simpa only [hzmap] using htakes
      · intro c' hcc
        rcases hcalls c' with h | h
        · exact (Function.update_of_ne hcc ..).trans h
        · exact absurd (hone c' c h hnew) hcc
    | store hstore | map hstore =>
      rcases hcalls c with h | h
      · cases h.symm.trans hstore
      · cases h.symm.trans hstore
  | pending c₀ zone hzero hptr htakes hstore hne hothers =>
    cases hs with
    | testZero htest _ => exact absurd (by rw [hstore]; trivial) (hund htest hptr c₀)
    | testSet _ hset => exact absurd hptr hset
    | newZone hnew =>
      by_cases hcc : c = c₀
      · cases (hcc ▸ hnew).symm.trans hstore
      · cases hnew.symm.trans (hothers c hcc)
    | store hstore' =>
      obtain rfl : c = c₀ := by
        by_contra hcc
        cases hstore'.symm.trans (hothers c hcc)
      cases hstore.symm.trans hstore'
      refine .set (by rwa [AufsInode.setZonePtr_self]) (fun _ => htakes)
        (fun hset => absurd hzero hset) ?_
      exact calls_update (Q := fun c' call => call = .test ∨ call = .map ∨ call = .done _)
        (fun c' hcc => .inl (hothers c' hcc)) (.inr (.inl rfl))
    | map hmap =>
      by_cases hcc : c = c₀
      · cases (hcc ▸ hmap).symm.trans hstore
      · cases hmap.symm.trans (hothers c hcc)
  | set hptr htook hkept hcalls =>
    cases hs with
    | testZero _ hzero => exact absurd hzero hptr
    | testSet =>
      exact .set hptr htook hkept
        (calls_update (Q := fun c' call => call = .test ∨ call = .map ∨ call = .done _)
          (fun c' _ => hcalls c') (.inr (.inl rfl)))
    | newZone hnew | store hnew =>
      rcases hcalls c with h | h | h
      · cases h.symm.trans hnew
      · cases h.symm.trans hnew
      · cases h.symm.trans hnew
    | map =>
      exact .set hptr htook hkept
        (calls_update (Q := fun c' call => call = .test ∨ call = .map ∨ call = .done _)
          (fun c' _ => hcalls c') (.inr (.inr rfl)))

/-- `aufs_get_block` on a file block of zone `idx`, when a zone is a whole number of blocks. -/
theorem aufsGetBlock_zoneBlock (hsize : sb.sBlocksize ≤ u32 sb.sbi.asbZoneSize)
    (hdvd : u32 sb.sbi.asbZoneSize % sb.sBlocksize = 0) (b : ZoneBlock sb idx) (zmap : MapBlocks)
    (inode : AufsInode) (behind : Nat → Nat) (create : Bool) :
    aufsGetBlock sb zmap inode behind b.iblock sb.sBlocksize create =
      if inode.aiZonePtr idx = 0 then
        { ret := .ok (u64 (sb.blockOffset b.iblock + u64OfInt (aufsNewZone sb zmap).1))
          inode := inode.setZonePtr idx (u64OfInt (aufsNewZone sb zmap).1)
          zmap := (aufsNewZone sb zmap).2
          newZone := some (aufsNewZone sb zmap).1 }
      else
        { ret := .ok (u64 (sb.blockOffset b.iblock + inode.aiZonePtr idx))
          inode, zmap
          newZone := none } := by
  have hidx : u32 (b.iblock / (u32 sb.sbi.asbZoneSize / sb.sBlocksize)) = idx := b.blockIdx_eq
  have hlt : u32 (b.iblock / (u32 sb.sbi.asbZoneSize / sb.sBlocksize)) < ZONE_PTR_IN_INODE_NUM :=
    hidx ▸ idx.isLt
  have hfin : (⟨_, hlt⟩ : Fin ZONE_PTR_IN_INODE_NUM) = idx := Fin.ext hidx
  simp only [aufsGetBlock, hdvd, ne_eq, not_true_eq_false, and_false, if_false,
    if_neg (Nat.not_lt.mpr hsize), AufsInode.zonePtr, hlt, dite_true, hfin]
  rfl

/-- A call that runs alone does what `aufs_get_block` does. -/
theorem getBlock_alone (blocks : Fin n → ZoneBlock sb idx)
    (hsize : sb.sBlocksize ≤ u32 sb.sbi.asbZoneSize)
    (hdvd : u32 sb.sbi.asbZoneSize % sb.sBlocksize = 0) (htest : s.calls c = .test)
    (hquiet : ∀ c', ¬(s.calls c').Allocating)
    (hspace : s.inode.aiZonePtr idx = 0 → (aufsNewZone sb s.zmap).1 ≠ 0) (behind : Nat → Nat)
    (create : Bool) :
    ∃ hist s' block,
      Trace (GuardedStep sb idx blocks) s hist s' ∧
      s'.calls = Function.update s.calls c (.done block) ∧
      s'.inode = (aufsGetBlock sb s.zmap s.inode behind (blocks c).iblock sb.sBlocksize
        create).inode ∧
      s'.zmap = (aufsGetBlock sb s.zmap s.inode behind (blocks c).iblock sb.sBlocksize
        create).zmap ∧
      (aufsGetBlock sb s.zmap s.inode behind (blocks c).iblock sb.sBlocksize create).ret =
        .ok block := by
  rw [aufsGetBlock_zoneBlock hsize hdvd]
  have hund : ∀ {s : MapRace n} {call : MapCall}, s.calls c = call → call ≠ .test →
      RaceStep.Undisturbed idx s c := by
    intro s call hcall hne htest
    exact absurd (hcall.symm.trans htest) hne
  by_cases hzero : s.inode.aiZonePtr idx = 0
  · generalize hzone : aufsNewZone sb s.zmap = zone at hspace ⊢
    obtain ⟨zone, zmap'⟩ := zone
    have hnew : (aufsNewZone sb s.zmap).1 ≠ 0 := by
      rw [hzone]
      exact hspace hzero
    have t₁ : Trace (GuardedStep sb idx blocks) s _
        ⟨s.inode, s.zmap, Function.update s.calls c .newZone⟩ :=
      .single ⟨.testZero htest hzero, fun _ _ => hquiet⟩
    have hcall₁ := Function.update_self c MapCall.newZone s.calls
    have t₂ := t₁.snoc ⟨.newZone hcall₁ hnew, hund hcall₁ nofun⟩
    simp only [hzone, Function.update_idem] at t₂
    have hcall₂ := Function.update_self c (MapCall.store zone) s.calls
    have t₃ := t₂.snoc ⟨.store hcall₂, hund hcall₂ nofun⟩
    simp only [Function.update_idem] at t₃
    have hcall₃ := Function.update_self c MapCall.map s.calls
    have t₄ := t₃.snoc ⟨.map hcall₃, hund hcall₃ nofun⟩
    simp only [Function.update_idem, AufsInode.setZonePtr_self] at t₄
    rw [if_pos hzero]
    exact ⟨_, _, _, t₄, rfl, rfl, rfl, rfl⟩
  · have t₁ : Trace (GuardedStep sb idx blocks) s _
        ⟨s.inode, s.zmap, Function.update s.calls c .map⟩ :=
      .single ⟨.testSet htest hzero, fun _ h => absurd h hzero⟩
    have hcall₁ := Function.update_self c MapCall.map s.calls
    have t₂ := t₁.snoc ⟨.map hcall₁, hund hcall₁ nofun⟩
    simp only [Function.update_idem] at t₂
    rw [if_neg hzero]
    exact ⟨_, _, _, t₂, rfl, rfl, rfl, rfl⟩

theorem run_phase {hist : List (Fin n × Unit)} (hstart : ∀ c, s₀.calls c = .test)
    (run : Trace (GuardedStep sb idx blocks) s₀ hist s) : RacePhase sb idx blocks s₀ s := by
  refine run.invariant ?_ fun h hs => h.step hs.1 hs.2
  by_cases hzero : s₀.inode.aiZonePtr idx = 0
  · refine .unset hzero hzero rfl (fun c => .inl (hstart c)) ?_
    intro c c' h
    cases (hstart c).symm.trans h
  · exact .set hzero (fun h => absurd h hzero) (fun _ => rfl) fun c => .inl (hstart c)

/-- In every run in which no call tests a zero pointer while another is between its test and its
store, once all calls are through: every buffer is mapped at its offset in the zone that the pointer
records, and exactly one bit of the zone map was set if the pointer was zero before, none
otherwise. -/
theorem concurrent_mapping {hist : List (Fin n × Unit)} (hn : 0 < n)
    (hstart : ∀ c, s₀.calls c = .test)
    (run : Trace (GuardedStep sb idx blocks) s₀ hist s)
    (hdone : ∀ c, ∃ block, s.calls c = .done block) :
    (∀ c, s.calls c = .done (u64 (sb.blockOffset (blocks c).iblock + s.inode.aiZonePtr idx))) ∧
    (s₀.inode.aiZonePtr idx = 0 →
      ∃ k < sb.sbi.asbZoneMapBlocks * (8 * sb.sBlocksize),
        rowBit (8 * sb.sBlocksize) s₀.zmap k = false ∧
        ∀ k', rowBit (8 * sb.sBlocksize) s.zmap k' =
          if k' = k then true else rowBit (8 * sb.sBlocksize) s₀.zmap k') ∧
    (s₀.inode.aiZonePtr idx ≠ 0 → s.zmap = s₀.zmap) := by
  cases run_phase hstart run with
  | unset _ _ _ hcalls =>
    obtain ⟨block, hblock⟩ := hdone ⟨0, hn⟩
    rcases hcalls ⟨0, hn⟩ with h | h
    · cases h.symm.trans hblock
    · cases h.symm.trans hblock
  | pending c zone _ _ _ hstore =>
    obtain ⟨block, hblock⟩ := hdone c
    cases hstore.symm.trans hblock
  | set _ htook hkept hcalls =>
    refine ⟨?_, ?_, hkept⟩
    · intro c
      obtain ⟨block, hblock⟩ := hdone c
      rcases hcalls c with h | h | h
      · cases h.symm.trans hblock
      · cases h.symm.trans hblock
      · exact h
    · intro hzero
      obtain ⟨k, htakes⟩ := htook hzero
      exact ⟨k, htakes.lt, htakes.clear, htakes.set⟩

end

/-! ## Two calls on a new file -/

variable {sb : Sb} {image : Image}

def firstPtr : Fin ZONE_PTR_IN_INODE_NUM := ⟨0, by decide⟩

/-- The first two blocks of a file on `eightZones`. -/
def firstBlocks (R : sb.Reads eightZones) (c : Fin 2) : ZoneBlock sb firstPtr where
  iblock := c
  blockIdx_eq := by
    have hc : (c : Nat) < 4 := by omega
    rw [Sb.blockIdx, R.zoneSize, R.blocksize]
    change u32 (c / 4) = 0
    rw [Nat.div_eq_of_lt hc]
    rfl

/-- A file without zones on the mounted image, and two calls. -/
def twoCalls (image : Image) : MapRace 2 where
  inode := newInode fun _ => 0
  zmap := fun _ => minixSetBit 0 image.zoneMap
  calls := fun _ => .test

theorem twoCalls_space (R : sb.Reads eightZones) (hf : image.Formatted eightZones rootEnv) :
    (aufsNewZone sb (twoCalls image).zmap).1 = (sb.zoneStart eightZones 2 : Nat) := by
  have H := accepted_of_parseArgs eightZones_parsed
  have hlt := Mounted.zoneStart_lt ⟨H, R, eightZones_fit R⟩ (show 2 < 8 by decide)
  rw [twoCalls, R.newZone_mounted H hf,
    R.zoneBlock_of_lt H (by decide) (Nat.lt_of_le_of_lt (Nat.le_add_right ..) hlt)]
  rfl

/-- One call after the other. -/
theorem concurrent_mapping_inTurn :
    ∃ (image : Image) (R : (aufsFillSb image.superBlock).Reads eightZones)
      (hist : List (Fin 2 × Unit)) (s : MapRace 2),
      Trace (GuardedStep (aufsFillSb image.superBlock) firstPtr (firstBlocks R))
        (twoCalls image) hist s ∧
      s.calls 1 = .done (u64 ((aufsFillSb image.superBlock).blockOffset 1 +
        s.inode.aiZonePtr firstPtr)) := by
  have H := accepted_of_parseArgs eightZones_parsed
  obtain ⟨image, -, hf, R⟩ := exists_image H rootEnv (blankDevice (2 ^ 20))
  have hsize : (aufsFillSb image.superBlock).sBlocksize ≤
      u32 (aufsFillSb image.superBlock).sbi.asbZoneSize := by
    rw [R.zoneSize, R.blocksize]
    decide
  have hdvd : u32 (aufsFillSb image.superBlock).sbi.asbZoneSize %
      (aufsFillSb image.superBlock).sBlocksize = 0 := by
    rw [R.zoneSize, R.blocksize]
    decide
  have hspace : (aufsNewZone (aufsFillSb image.superBlock) (twoCalls image).zmap).1 ≠ 0 := by
    have hge := Mounted.zoneStart_ge ⟨H, R, eightZones_fit R⟩ (Nat.le_refl 2)
    rw [twoCalls_space R hf]
    omega
  obtain ⟨hist₁, s₁, block₁, run₁, hcalls₁, hinode₁, -⟩ :=
    getBlock_alone (firstBlocks R) (s := twoCalls image) (c := 0) hsize hdvd rfl
      (fun _ => not_false) (fun _ => hspace) (fun _ => 0) true
  have hzero : (twoCalls image).inode.aiZonePtr firstPtr = 0 := rfl
  have hptr : s₁.inode.aiZonePtr firstPtr ≠ 0 := by
    rw [hinode₁, aufsGetBlock_zoneBlock hsize hdvd, if_pos hzero, AufsInode.setZonePtr_self]
    exact (aufsNewZone_ne_zero hspace).2
  have hquiet : ∀ c, ¬(s₁.calls c).Allocating := by
    rw [hcalls₁]
    exact calls_update (Q := fun _ call => ¬call.Allocating) (fun _ _ => not_false) not_false
  obtain ⟨hist₂, s₂, block₂, run₂, hcalls₂, -⟩ :=
    getBlock_alone (firstBlocks R) (c := 1) hsize hdvd (by rw [hcalls₁]; rfl) hquiet
      (fun h => absurd h hptr) (fun _ => 0) true
  have hdone : ∀ c, ∃ block, s₂.calls c = .done block := by
    rw [hcalls₂, hcalls₁, Fin.forall_fin_two]
    exact ⟨⟨_, rfl⟩, ⟨_, rfl⟩⟩
  exact ⟨image, R, hist₁ ++ hist₂, s₂, run₁.append run₂,
    (concurrent_mapping (by decide) (fun _ => rfl) (run₁.append run₂) hdone).1 1⟩

/-- The second call of `aufs_new_zone` takes another zone. -/
theorem twoCalls_second (R : sb.Reads eightZones) (hf : image.Formatted eightZones rootEnv) :
    ∃ j, 2 ≤ j ∧ j < 8 ∧ j ≠ 2 ∧
      (aufsNewZone sb (aufsNewZone sb (twoCalls image).zmap).2).1 =
        (sb.zoneStart eightZones j : Nat) := by
  have H := accepted_of_parseArgs eightZones_parsed
  have M : Mounted eightZones sb := ⟨H, R, eightZones_fit R⟩
  have hbit : ∀ k, bit ((aufsNewZone sb (twoCalls image).zmap).2 0) k =
      if k = 2 then true else if k = 0 then true else bit image.zoneMap k := by
    intro k
    rw [twoCalls, R.newZone_mounted H hf]
    simp only [Function.update_self, minixSetBit, bit_setBit]
  have hmap := hf.zoneMap
  have hbs : sb.sBlocksize = 4096 := R.blocksize
  have hclear : ∀ j < 8 * sb.sBlocksize,
      bit ((aufsNewZone sb (twoCalls image).zmap).2 0) j = false → 2 ≤ j ∧ j < 8 := by
    intro j hj hfree
    rw [hbit] at hfree
    split at hfree
    · cases hfree
    · split at hfree
      · cases hfree
      · exact (hmap j (by rw [hbs] at hj; exact hj)).mp hfree
  rcases M.newZone_cases (aufsNewZone sb (twoCalls image).zmap).2 hclear with
    ⟨hfull, -⟩ | ⟨j, hj2, hjn, hfree, heq⟩
  · have h3 := hfull 3 (by omega)
    rw [hbit, if_neg (by decide), if_neg (by decide), (hmap 3 (by decide)).mpr (by decide)] at h3
    cases h3
  · refine ⟨j, hj2, hjn, ?_, by rw [heq]⟩
    rintro rfl
    rw [hbit, if_pos rfl] at hfree
    cases hfree

/-- Both calls find the pointer zero and take a zone; the second stores its own over the first. -/
theorem both_allocate {idx : Fin ZONE_PTR_IN_INODE_NUM} (blocks : Fin 2 → ZoneBlock sb idx)
    {s : MapRace 2} (htest : ∀ c, s.calls c = .test) (hptr : s.inode.aiZonePtr idx = 0)
    (h₁ : (aufsNewZone sb s.zmap).1 ≠ 0)
    (h₂ : (aufsNewZone sb (aufsNewZone sb s.zmap).2).1 ≠ 0) :
    ∃ hist s', Trace (RaceStep sb idx blocks) s hist s' ∧
      s'.calls 0 = .done (u64 (sb.blockOffset (blocks 0).iblock +
        u64OfInt (aufsNewZone sb s.zmap).1)) ∧
      (∃ block, s'.calls 1 = .done block) ∧
      s'.inode.aiZonePtr idx = u64OfInt (aufsNewZone sb (aufsNewZone sb s.zmap).2).1 := by
  have t₁ : Trace (RaceStep sb idx blocks) s _ _ := .single (.testZero (htest 0) hptr)
  have t₂ := t₁.snoc (.testZero (c := 1) (htest 1) hptr)
  have t₃ := t₂.snoc (.newZone (c := 0) rfl h₁)
  have t₄ := t₃.snoc (.newZone (c := 1) rfl h₂)
  have t₅ := t₄.snoc (.store (c := 0) rfl)
  have t₆ := t₅.snoc (.map (c := 0) rfl)
  have t₇ := t₆.snoc (.store (c := 1) rfl)
  have t₈ := t₇.snoc (.map (c := 1) rfl)
  refine ⟨_, _, t₈, ?_, ⟨_, rfl⟩, ?_⟩
  · simp
  · simp

/-- A buffer is left in a zone that no inode refers to. -/
theorem zone_lost :
    ∃ (image : Image) (R : (aufsFillSb image.superBlock).Reads eightZones)
      (hist : List (Fin 2 × Unit)) (s : MapRace 2),
      Trace (RaceStep (aufsFillSb image.superBlock) firstPtr (firstBlocks R))
        (twoCalls image) hist s ∧
      (∀ c, ∃ block, s.calls c = .done block) ∧
      s.calls 0 ≠ .done (u64 ((aufsFillSb image.superBlock).blockOffset 0 +
        s.inode.aiZonePtr firstPtr)) := by
  have H := accepted_of_parseArgs eightZones_parsed
  obtain ⟨image, -, hf, R⟩ := exists_image H rootEnv (blankDevice (2 ^ 20))
  have M : Mounted eightZones (aufsFillSb image.superBlock) := ⟨H, R, eightZones_fit R⟩
  obtain ⟨j, hj, hjn, hne, hnew₂⟩ := twoCalls_second R hf
  have hspace₁ := twoCalls_space R hf
  have hj₂ := M.zoneStart_ge hj
  have hjlt := M.zoneStart_lt hjn
  have hlt := M.zoneStart_lt (show 2 < 8 by decide)
  have hge := M.zoneStart_ge (Nat.le_refl 2)
  obtain ⟨hist, s, run, h0, h1, hptr⟩ := both_allocate (firstBlocks R) (s := twoCalls image)
    (fun _ => rfl) rfl (by rw [hspace₁]; omega) (by rw [hnew₂]; omega)
  refine ⟨image, R, hist, s, run, Fin.forall_fin_two.mpr ⟨⟨_, h0⟩, h1⟩, ?_⟩
  rw [h0, hptr, hspace₁, hnew₂, u64OfInt_natCast (by omega), u64OfInt_natCast (by omega)]
  intro heq
  have hoff : (aufsFillSb image.superBlock).blockOffset 0 < 2 ^ 32 := u32_lt
  have hblock := MapCall.done.inj heq
  change u64 ((aufsFillSb image.superBlock).blockOffset 0 + _) = _ at hblock
  rw [u64_of_lt (by omega), u64_of_lt (by omega)] at hblock
  have hstart : 0 + (aufsFillSb image.superBlock).zoneStart eightZones j =
      0 + (aufsFillSb image.superBlock).zoneStart eightZones 2 := by omega
  exact hne (Mounted.zoneStart_inj hstart (by decide) (by decide)).1

end Aufs
