import Aufs.Lib.Word
import Mathlib.Algebra.Order.Group.Nat
import Mathlib.Algebra.Order.Monoid.Canonical.Defs
import Mathlib.Tactic.IntervalCases

/-! The arguments of `mkfs.aufs` (`user/mkfs.cpp`) and the geometry computed from them
(`Configuration` in `user/block.hpp`).

The members of `Configuration` are `uint32_t`; sums and products wrap at `2 ^ 32` where the source
computes in that type. Fields stand under the names of their accessors. -/

namespace Aufs
open Word

/-- How a run of `mkfs.aufs` stops early: an exception derived from `std::exception`, or a
division by zero. -/
inductive MkfsError where
  | exception (what : String)
  | divisionByZero
  deriving DecidableEq, Repr

theorem bind_eq_ok {x : Except ε α} {f : α → Except ε β} :
    x >>= f = .ok b ↔ ∃ a, x = .ok a ∧ f a = .ok b := by
  cases x with
  | error e => simp [bind, Except.bind]
  | ok a => simp [bind, Except.bind]

/-! ## Configuration -/

structure Configuration where
  device : String
  sourceDir : String
  numZones : Nat
  zoneSize : Nat
  numInodeEntryBlocks : Nat
  numInodeMapBlocks : Nat
  numZoneMapBlocks : Nat
  numBlockAlignment : Nat
  deriving DecidableEq, Repr

/-- `sizeof(struct aufs_inode)` in mkfs, `sizeof(struct aufs_disk_inode)` in the kernel: nine zone
pointers and five more 32-bit fields, then a 64-bit time. -/
def sizeofInode : Nat := 64

def blockSizeOf (zoneSize : Nat) : Nat := if zoneSize > 4096 then 4096 else zoneSize

namespace Configuration

def blockSize (config : Configuration) : Nat := blockSizeOf config.zoneSize

/-- `CountInodeEntryBlocks`, run by the constructor once `m_device_zones` is set. -/
def countInodeEntryBlocks (numZones zoneSize numInodeMapBlocks : Nat) : Except MkfsError Nat :=
  let inodes := min numZones (u32 (numInodeMapBlocks * blockSizeOf zoneSize * 8))
  let inBlock := blockSizeOf zoneSize / sizeofInode
  if inBlock = 0 then .error .divisionByZero
  else .ok (u32 (inodes + inBlock - 1) / inBlock)

/-- The constructor. Its arguments are `uint32_t`. -/
def make (device dir : String) (nZones zoneSize numBlockInodeMap numBlockZoneMap
    numBlockAlignment : Nat) : Except MkfsError Configuration := do
  let deviceZones := min (u32 (numBlockZoneMap * blockSizeOf zoneSize * 8)) nZones
  let inodeBlocks ← countInodeEntryBlocks deviceZones zoneSize numBlockInodeMap
  return {
    device := device
    sourceDir := dir
    numZones := deviceZones
    zoneSize := zoneSize
    numInodeEntryBlocks := inodeBlocks
    numInodeMapBlocks := numBlockInodeMap
    numZoneMapBlocks := numBlockZoneMap
    numBlockAlignment := numBlockAlignment }

def integerRoundUpDivision (dividend divisor : Nat) : Nat := u32 (dividend + divisor - 1) / divisor

def calculateAlignedNumBlocks (config : Configuration) (numBlocks : Nat) : Nat :=
  u32 (integerRoundUpDivision numBlocks config.numBlockAlignment * config.numBlockAlignment)

end Configuration

/-! ## Verification of a configuration -/

def verifyZones (config : Configuration) : Bool := !decide (config.numZones ≤ 3)

/-- The device files: their sizes in bytes, none where a file cannot be opened. -/
abbrev Files := String → Option Nat

/-- `DeviceSize`. `tellg` gives -1 on a stream that is not open, and the cast takes it for a
size. -/
def Files.deviceSize (files : Files) (device : String) : Nat :=
  match files device with
  | some size => u64 size
  | none => u64OfInt (-1)

/-- `deviceSize` gives the device's size in bytes, a `size_t`. The product is one of `uint32_t`. -/
def verifyDevice (deviceSize : String → Nat) (config : Configuration) : Bool :=
  !decide (deviceSize config.device < u32 (config.numZones * config.zoneSize))

/-- The loop of `IsPowerOfTwo`, halving at most `fuel` times. -/
def isPowerOfTwoLoop : Nat → Nat → Bool
  | 0, _ => true
  | fuel + 1, zoneSize =>
    if zoneSize > 1 then
      if zoneSize % 2 = 1 then false else isPowerOfTwoLoop fuel (zoneSize / 2)
    else true

/-- A `uint32_t` is down to one after at most 32 halvings. -/
def isPowerOfTwo (zoneSize : Nat) : Bool := isPowerOfTwoLoop 32 zoneSize

/-- The zone count is compared with one map block too, but only for a message. -/
def verifyZoneSize (config : Configuration) : Bool :=
  !(decide (config.zoneSize < 512) || !isPowerOfTwo config.zoneSize)

def verifyConfiguration (deviceSize : String → Nat) (config : Configuration) :
    Except MkfsError Configuration :=
  if !verifyZoneSize config then .error (.exception "Unsupported zone size")
  else if !verifyZones config then .error (.exception "Wrong number of zones")
  else if !verifyDevice deviceSize config then .error (.exception "Device is too small")
  else .ok config

/-! ## Arguments -/

def isSpace (c : Char) : Bool := c = ' ' || (decide (9 ≤ c.toNat) && decide (c.toNat ≤ 13))

def digitsValue (digits : List Char) : Nat := digits.foldl (fun n c => 10 * n + (c.toNat - 48)) 0

/-- `std::stoi`: leading white space, an optional sign, the longest run of digits; what follows is
ignored. -/
def stoi (s : String) : Except MkfsError Int :=
  let text := s.toList.dropWhile isSpace
  let (negative, text) := match text with
    | '-' :: rest => (true, rest)
    | '+' :: rest => (false, rest)
    | rest => (false, rest)
  let digits := text.takeWhile Char.isDigit
  if digits.isEmpty then .error (.exception "stoi")
  else
    let value : Int := if negative then -(digitsValue digits : Int) else digitsValue digits
    if value < -2 ^ 31 ∨ 2 ^ 31 ≤ value then .error (.exception "stoi") else .ok value

/-- The local variables of `ParseArgs`. -/
structure Args where
  device : String
  dir : String
  zoneSize : Nat
  numZones : Nat
  deriving DecidableEq, Repr

/-- The loop of `ParseArgs`. An option that is the last argument is taken for the device. -/
def parseArgsLoop : List String → Args → Except MkfsError Args
  | [], args => .ok args
  | [arg], args =>
    if arg = "--help" ∨ arg = "-h" then .ok args else .ok { args with device := arg }
  | arg :: value :: rest, args =>
    if arg = "--nzones" ∨ arg = "-b" then do
      let n ← stoi value
      parseArgsLoop rest { args with numZones := u64OfInt n }
    else if arg = "--zonesize" ∨ arg = "-s" then do
      let n ← stoi value
      parseArgsLoop rest { args with zoneSize := u64OfInt n }
    else if arg = "--dir" ∨ arg = "-d" then
      parseArgsLoop rest { args with dir := value }
    else if arg = "--help" ∨ arg = "-h" then parseArgsLoop (value :: rest) args
    else parseArgsLoop (value :: rest) { args with device := arg }

/-- The zone count when none, or zero, was given. -/
def defaultNumZones (deviceSize : String → Nat) (args : Args) : Except MkfsError Nat :=
  if args.numZones = 0 then
    if args.zoneSize = 0 then .error .divisionByZero
    else .ok (deviceSize args.device / args.zoneSize)
  else .ok args.numZones

/-- The configuration `ParseArgs` builds: one block for each map, alignment to 1024 blocks, the
zone count and size cut to `uint32_t`. -/
def parsedConfiguration (device dir : String) (numZones zoneSize : Nat) :
    Except MkfsError Configuration :=
  Configuration.make device dir (u32 numZones) (u32 zoneSize) 1 1 1024

def parseArgs (deviceSize : String → Nat) (argv : List String) :
    Except MkfsError Configuration := do
  let args ← parseArgsLoop argv { device := "", dir := "", zoneSize := 16384, numZones := 0 }
  if args.device = "" then throw (.exception "Device name expected")
  let numZones ← defaultNumZones deviceSize args
  let config ← parsedConfiguration args.device args.dir numZones args.zoneSize
  verifyConfiguration deviceSize config

/-! ## What an accepted configuration looks like -/

theorem isPowerOfTwoLoop_eq (h : isPowerOfTwoLoop fuel z = true) (hz : 1 ≤ z)
    (hlt : z < 2 ^ fuel) : ∃ k < fuel, z = 2 ^ k := by
  induction fuel generalizing z with
  | zero => omega
  | succ fuel ih =>
    rw [isPowerOfTwoLoop] at h
    split at h
    · split at h
      · contradiction
      · obtain ⟨k, hk, hz'⟩ := ih h (by omega) (by omega)
        exact ⟨k + 1, by omega, by omega⟩
    · exact ⟨0, by omega, by omega⟩

namespace Configuration

/-- The facts about a configuration that `VerifyConfiguration` lets through. -/
structure Accepted (config : Configuration) : Prop where
  zoneSize_pow : ∃ k, 9 ≤ k ∧ k < 32 ∧ config.zoneSize = 2 ^ k
  inodeMapBlocks : config.numInodeMapBlocks = 1
  zoneMapBlocks : config.numZoneMapBlocks = 1
  alignment : config.numBlockAlignment = 1024
  three_lt : 3 < config.numZones
  numZones_le : config.numZones ≤ config.blockSize * 8
  inodeEntryBlocks : config.numInodeEntryBlocks =
    (config.numZones + config.blockSize / sizeofInode - 1) / (config.blockSize / sizeofInode)

end Configuration

theorem verifyConfiguration_eq_ok
    (h : verifyConfiguration deviceSize config = .ok config') :
    config' = config ∧ 512 ≤ config.zoneSize ∧ isPowerOfTwo config.zoneSize = true ∧
      3 < config.numZones ∧
      u32 (config.numZones * config.zoneSize) ≤ deviceSize config.device := by
  unfold verifyConfiguration at h
  split at h
  · cases h
  split at h
  · cases h
  split at h
  · cases h
  next hsize hzones hdev =>
    simp only [verifyZoneSize, verifyZones, verifyDevice, Bool.not_not, Bool.not_eq_true,
      Bool.or_eq_false_iff, decide_eq_false_iff_not, Bool.not_eq_false'] at hsize hzones hdev
    cases h
    exact ⟨rfl, by omega, hsize.2, by omega, by omega⟩

theorem blockSizeOf_le : blockSizeOf zoneSize ≤ 4096 := by
  unfold blockSizeOf
  split <;> omega

/-- The configuration built from one map block each, with its wrap-free inode table size. -/
theorem parsedConfiguration_eq_ok
    (h : parsedConfiguration device dir numZones zoneSize = .ok config) :
    config.device = device ∧ config.zoneSize = u32 zoneSize ∧
      config.numZones = min (config.blockSize * 8) (u32 numZones) ∧
      config.numInodeMapBlocks = 1 ∧ config.numZoneMapBlocks = 1 ∧
      config.numBlockAlignment = 1024 ∧
      config.numInodeEntryBlocks =
        (config.numZones + config.blockSize / sizeofInode - 1) /
          (config.blockSize / sizeofInode) := by
  simp only [parsedConfiguration, Configuration.make, bind_eq_ok] at h
  obtain ⟨inodeBlocks, hcount, hmk⟩ := h
  cases hmk
  generalize u32 zoneSize = zs at *
  generalize u32 numZones = n at *
  have hbs : blockSizeOf zs ≤ 4096 := blockSizeOf_le
  have hfit : u32 (1 * blockSizeOf zs * 8) = blockSizeOf zs * 8 := by
    rw [Nat.one_mul, u32_of_lt (by omega)]
  simp only [Configuration.countInodeEntryBlocks, hfit] at hcount
  split at hcount
  · cases hcount
  · have hin : blockSizeOf zs / sizeofInode ≤ 64 := by unfold sizeofInode; omega
    rw [Nat.min_eq_left (Nat.min_le_left _ _), u32_of_lt (by omega)] at hcount
    simp only [Except.ok.injEq] at hcount
    simp only [Configuration.blockSize, hfit]
    exact ⟨trivial, trivial, trivial, trivial, trivial, trivial, hcount.symm⟩

/-- Everything that `VerifyConfiguration` accepts of what `ParseArgs` builds. -/
theorem accepted_of_verify (hmake : parsedConfiguration device dir numZones zoneSize = .ok config)
    (h : verifyConfiguration deviceSize config = .ok config') : config.Accepted := by
  obtain ⟨-, hsize, hpow, hzones, -⟩ := verifyConfiguration_eq_ok h
  obtain ⟨-, hzs, hnum, him, hzm, hal, hin⟩ := parsedConfiguration_eq_ok hmake
  have hlt : config.zoneSize < 2 ^ 32 := hzs ▸ u32_lt
  obtain ⟨k, hk, hz⟩ := isPowerOfTwoLoop_eq hpow (by omega) hlt
  have hk9 : 9 ≤ k := by
    by_contra hlt
    have : 2 ^ k ≤ 2 ^ 8 := Nat.pow_le_pow_right (by omega) (by omega)
    omega
  exact ⟨⟨k, hk9, hk, hz⟩, him, hzm, hal, hzones, by omega, hin⟩

/-- The steps of a run of `ParseArgs` that returns. -/
theorem parseArgs_eq_ok (h : parseArgs deviceSize argv = .ok config) :
    ∃ args numZones,
      parseArgsLoop argv { device := "", dir := "", zoneSize := 16384, numZones := 0 } = .ok args ∧
      defaultNumZones deviceSize args = .ok numZones ∧
      parsedConfiguration args.device args.dir numZones args.zoneSize = .ok config ∧
      verifyConfiguration deviceSize config = .ok config := by
  simp only [parseArgs, bind_eq_ok] at h
  obtain ⟨args, hargs, h⟩ := h
  split at h
  · obtain ⟨_, h, -⟩ := bind_eq_ok.mp h
    cases h
  · simp only [bind_eq_ok] at h
    obtain ⟨numZones, hnum, made, hmake, hverify⟩ := h
    obtain ⟨rfl, -⟩ := verifyConfiguration_eq_ok hverify
    exact ⟨args, numZones, hargs, hnum, hmake, hverify⟩

/-- Everything that `ParseArgs` returns. -/
theorem accepted_of_parseArgs (h : parseArgs deviceSize argv = .ok config) : config.Accepted := by
  obtain ⟨_, _, -, -, hmake, hverify⟩ := parseArgs_eq_ok h
  exact accepted_of_verify hmake hverify

end Aufs
