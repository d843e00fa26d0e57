import Aufs.Lib.Trace
import Aufs.Verify.Directory
import Aufs.Verify.ReaddirSlots

/-! Listing a directory over several calls. One call of `minix_readdir` at slot `g` emits the slots
from `g` on, as many as `dir_emit` takes, and leaves `ctx->pos` behind the last of them; entries
added between calls come at the end, so all calls together emit a growing list front to back. -/

namespace Aufs
open Bytes Word

variable {order : ByteOrder} {dir : AufsInode} {content : Mem} {env : DirEnv}

/-- The `m` slots from `g` on. -/
def slots (order : ByteOrder) (content : Mem) (g m : Nat) : List (List Byte × Nat) :=
  (List.range' g m).map (slot order content)

theorem slots_append : slots order content g m ++ slots order content (g + m) n =
    slots order content g (m + n) := by
  rw [slots, slots, slots, ← List.map_append, List.range'_append_1]

theorem dirEntries_eq_slots :
    dirEntries order dir content = slots order content 0 (dir.iSize / AUFS_DIR_SIZE) := by
  rw [dirEntries, slots, List.range_eq_range']

theorem dirEntries_take (h : g ≤ dir.iSize / AUFS_DIR_SIZE) :
    (dirEntries order dir content).take g = slots order content 0 g := by
  rw [dirEntries_eq_slots, slots, slots, ← List.map_take, List.take_range'_of_length_ge h]

theorem slots_length : (slots order content g m).length = m := by
  simp [slots]

/-- With every page readable, the slots passed to `dir_emit` are all from `g` on. -/
theorem readableSlots_all (hread : ∀ n, env.readMappingPage n = .ok ()) (g : Nat) :
    readableSlots env.fails dir g = List.range' g (dir.iSize / AUFS_DIR_SIZE - g) := by
  apply List.filter_eq_self.mpr
  intro i _
  rw [DirEnv.fails, hread]
  rfl

/-- One call at slot `g` emits the slots from `g` on, as many as there is room for. -/
theorem minixReaddir_spec (wf : WellFormed order dir content)
    (hread : ∀ n, env.readMappingPage n = .ok ()) (hg : g ≤ dir.iSize / AUFS_DIR_SIZE)
    (room : Nat) :
    (minixReaddir order env dir content (g * AUFS_DIR_SIZE) room).emitted =
      slots order content g (min room (dir.iSize / AUFS_DIR_SIZE - g)) ∧
    (minixReaddir order env dir content (g * AUFS_DIR_SIZE) room).pos =
      (g + min room (dir.iSize / AUFS_DIR_SIZE - g)) * AUFS_DIR_SIZE := by
  rw [minixReaddir_emits wf.aligned, minixReaddirAt_eq wf hg, readableSlots_all hread]
  simp only [ReaddirAt.emits, ReaddirAt.offer, List.nil_append, List.length_map,
    List.length_range', Nat.add_mul, and_true]
  rw [← List.map_take, List.map_map, range'_take]
  rfl

/-! ## Listing while the directory grows -/

/-- A directory and the position of a listing. -/
structure Listing where
  inode : AufsInode
  content : Mem
  pos : Nat

inductive ListOp where
  | readdir (env : DirEnv) (room : Nat)
  | addLink (env : DirEnv) (zmap : MapBlocks) (name : List Byte) (ino : Nat)

/-- A call that takes up the listing, or a successful `minix_add_link`; the output is what was
emitted. -/
inductive ListStep (order : ByteOrder) (sb : Sb) :
    Listing → ListOp → List (List Byte × Nat) → Listing → Prop
  | readdir {s env room} : 1 ≤ room → (∀ n, env.readMappingPage n = .ok ()) →
    ListStep order sb s (.readdir env room)
      (minixReaddir order env s.inode s.content s.pos room).emitted
      { s with pos := (minixReaddir order env s.inode s.content s.pos room).pos }
  | addLink {s env zmap name ino} : ValidName name → 1 ≤ ino → ino < 2 ^ 32 →
    (minixAddLink order sb env zmap s.inode s.content name ino).ret = some (.ok ()) →
    ListStep order sb s (.addLink env zmap name ino) []
      { s with
        inode := (minixAddLink order sb env zmap s.inode s.content name ino).dir
        content := (minixAddLink order sb env zmap s.inode s.content name ino).content }

/-- Everything a history has emitted. -/
def emitted (hist : List (ListOp × List (List Byte × Nat))) : List (List Byte × Nat) :=
  hist.flatMap Prod.snd

/-- The listing stands at slot `g`, and the slots in front of it are `es`. -/
structure Listing.At (order : ByteOrder) (s : Listing) (es : List (List Byte × Nat)) (g : Nat) :
    Prop where
  wf : WellFormed order s.inode s.content
  le : g ≤ s.inode.iSize / AUFS_DIR_SIZE
  pos : s.pos = g * AUFS_DIR_SIZE
  front : (dirEntries order s.inode s.content).take g = es

theorem ListStep.at {sb : Sb} {s s' : Listing} (h : s.At order es g)
    (hs : ListStep order sb s op out s') : ∃ g', s'.At order (es ++ out) g' := by
  cases hs with
  | @readdir env room _ hread =>
    obtain ⟨hemit, hpos⟩ := minixReaddir_spec h.wf hread h.le room
    have hle : g + min room (s.inode.iSize / AUFS_DIR_SIZE - g) ≤
        s.inode.iSize / AUFS_DIR_SIZE := by
      have := h.le
      omega
    rw [h.pos, hemit, hpos]
    refine ⟨_, h.wf, hle, rfl, ?_⟩
    rw [← h.front, dirEntries_take h.le, dirEntries_take hle, ← slots_append, Nat.zero_add]
  | @addLink env zmap name ino hname h1 hino hret =>
    have happ := (minixAddLink_ok h.wf hname hino hret).2.2
    have hle := h.le
    refine ⟨g, happ.wellFormed h.wf (by omega), ?_, h.pos, ?_⟩
    · simp only [happ.size]
      exact Nat.le_trans hle (Nat.div_le_div_right (Nat.le_add_right ..))
    · simp only [happ.entries, List.append_nil]
      rw [List.take_append_of_le_length (by rwa [dirEntries_length]), h.front]

/-- In every run of `minix_readdir` calls and successful `minix_add_link` calls on a well-formed
directory, what has been emitted is the slots in front of `ctx->pos`, in order; and a call that
emits nothing finds all slots emitted. -/
theorem readdir_slots {sb : Sb} {hist : List (ListOp × List (List Byte × Nat))} {s : Listing}
    (wf : WellFormed order dir content)
    (t : Trace (ListStep order sb) { inode := dir, content := content, pos := 0 } hist s) :
    emitted hist = (dirEntries order s.inode s.content).take (s.pos / AUFS_DIR_SIZE) ∧
      s.pos ≤ s.inode.iSize ∧
      ∀ env room s', ListStep order sb s (.readdir env room) [] s' →
        emitted hist = dirEntries order s.inode s.content := by
  obtain ⟨g, h⟩ : ∃ g, s.At order (emitted hist) g := by
    induction t with
    | nil => exact ⟨0, wf, Nat.zero_le _, rfl, rfl⟩
    | snoc _ hs ih =>
      obtain ⟨g, h⟩ := ih
      have hsnoc := ListStep.at h hs
      rwa [emitted, List.flatMap_append, List.flatMap_singleton]
  have hg : s.pos / AUFS_DIR_SIZE = g := by
    rw [h.pos]
    exact Nat.mul_div_cancel _ (by decide)
  refine ⟨by rw [hg, h.front], ?_, ?_⟩
  · rw [h.pos]
    exact (Nat.le_div_iff_mul_le (by decide)).mp h.le
  · intro env room s' hs
    generalize hout : ([] : List (List Byte × Nat)) = out at hs
    cases hs with
    | readdir hroom hread =>
      obtain ⟨hemit, -⟩ := minixReaddir_spec h.wf hread h.le room
      rw [← h.pos, ← hout] at hemit
      have hlen := congrArg List.length hemit
      rw [slots_length, List.length_nil] at hlen
      have hall : g = s.inode.iSize / AUFS_DIR_SIZE := by
        have := h.le
        omega
      rw [← h.front, hall, List.take_of_length_le (by rw [dirEntries_length])]

/-- A call at slot `g` with every page readable. -/
theorem ListStep.emits_slots (sb : Sb) (wf : WellFormed order dir content)
    (hg : g ≤ dir.iSize / AUFS_DIR_SIZE) (hroom : 1 ≤ room) :
    ListStep order sb { inode := dir, content, pos := g * AUFS_DIR_SIZE } (.readdir quietEnv room)
      (slots order content g (min room (dir.iSize / AUFS_DIR_SIZE - g)))
      { inode := dir, content
        pos := (g + min room (dir.iSize / AUFS_DIR_SIZE - g)) * AUFS_DIR_SIZE } := by
  have hread : ∀ n, quietEnv.readMappingPage n = .ok () := fun _ => rfl
  obtain ⟨hemit, hpos⟩ := minixReaddir_spec wf hread hg room
  rw [← hemit, ← hpos]
  exact .readdir hroom hread

/-- An addition is one between the calls of a listing. -/
theorem DirStep.listStep {sb : Sb} {s s' : DirState}
    (hs : DirStep order sb s (.addLink env zmap name ino) (.added (some (.ok ()))) s')
    (pos : Nat) :
    ListStep order sb { inode := s.inode, content := s.content, pos } (.addLink env zmap name ino)
      [] { inode := s'.inode, content := s'.content, pos } := by
  generalize hout : DirOut.added (some (.ok ())) = out at hs
  cases hs with
  | addLink hname h1 hino => exact .addLink hname h1 hino (DirOut.added.inj hout).symm

/-- The root directory of a new image, listed while a file is added. -/
theorem readdir_slots_root :
    ∃ image s₀ s s' zmap, mkfs rootEnv 1 eightZones (blankDevice (2 ^ 20)) = some image ∧
      DirStart .little (aufsFillSb image.superBlock) image
        [(ascii ".", 2 ^ 24), (ascii "..", 2 ^ 24)] s₀ ∧
      Trace (ListStep .little (aufsFillSb image.superBlock))
        { inode := s₀.inode, content := s₀.content, pos := 0 }
        [(.readdir quietEnv 1, [(ascii ".", 2 ^ 24)]), (.addLink quietEnv zmap nameA 2, []),
          (.readdir quietEnv 5, [(ascii "..", 2 ^ 24), (nameA, 2)])] s ∧
      ListStep .little (aufsFillSb image.superBlock) s (.readdir quietEnv 5) [] s' ∧
      dirEntries .little s.inode s.content =
        [(ascii ".", 2 ^ 24), (ascii "..", 2 ^ 24), (nameA, 2)] := by
  have H := accepted_of_parseArgs eightZones_parsed
  obtain ⟨image, himage, hf, R⟩ := exists_image H rootEnv (blankDevice (2 ^ 20))
  obtain ⟨s₀, s, m₀, m, hstart, r₀, hm₀, r, hm, hadd⟩ :=
    exists_added ⟨H, R, eightZones_fit R⟩ hf fun _ => image.zoneMap
  have htwo : s₀.inode.iSize / AUFS_DIR_SIZE = 2 := by
    rw [r₀.size, hm₀]
    rfl
  have hthree : s.inode.iSize / AUFS_DIR_SIZE = 3 := by
    rw [r.size, hm]
    rfl
  have hone : slots .little s₀.content 0 1 = [(ascii ".", 2 ^ 24)] := by
    have htake : (dirEntries .little s₀.inode s₀.content).take 1 = slots .little s₀.content 0 1 :=
      dirEntries_take (by omega)
    rw [← htake, r₀.entries, hm₀]
    rfl
  have hcall₁ := ListStep.emits_slots (aufsFillSb image.superBlock) r₀.wellFormed
    (Nat.zero_le _) (Nat.le_refl 1)
  rw [htwo] at hcall₁
  have hcall₂ := ListStep.emits_slots (aufsFillSb image.superBlock) r.wellFormed
    (show 1 ≤ _ by omega) (show 1 ≤ 5 by decide)
  have hcall₃ := ListStep.emits_slots (aufsFillSb image.superBlock) r.wellFormed
    (show 3 ≤ _ by omega) (show 1 ≤ 5 by decide)
  rw [hthree] at hcall₂ hcall₃
  have t := ((Trace.single hcall₁).snoc (hadd.listStep _)).snoc hcall₂
  -- the third call emits nothing, so the first two have emitted everything
  have hall : slots .little s₀.content 0 1 ++ slots .little s.content 1 2 = _ :=
    ((readdir_slots r₀.wellFormed t).2.2 _ _ _ hcall₃).trans (r.entries.trans hm)
  rw [hone, List.singleton_append, List.cons.injEq] at hall
  have hfirst : slots .little s₀.content 0 (min 1 (2 - 0)) = [(ascii ".", 2 ^ 24)] := hone
  have hsecond : slots .little s.content 1 (min 5 (3 - 1)) = [(ascii "..", 2 ^ 24), (nameA, 2)] :=
    hall.2
  rw [hfirst, hsecond] at t
  exact ⟨image, s₀, _, _, _, himage, hstart, t, hcall₃, r.entries.trans hm⟩

end Aufs
