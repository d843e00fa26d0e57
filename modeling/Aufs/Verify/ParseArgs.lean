import Aufs.Mkfs.Geometry

/-! What `ParseArgs` does on every argument vector. The zone count and the constructor of
`Configuration` divide by quantities made from the zone size before `VerifyConfiguration` looks at
it; a zone size from 0 to 63 gets that far, and there is no other way to a division by zero. -/

namespace Aufs
open Word

/-! ## Arguments as settings -/

/-- What one argument, or an option with its value, says. -/
inductive Setting where
  | numZones (value : String)
  | zoneSize (value : String)
  | dir (value : String)
  | device (name : String)
  deriving DecidableEq, Repr

/-- An option wants a value after it; without one it is taken for the device. -/
def settings : List String → List Setting
  | [] => []
  | [arg] => if arg = "--help" ∨ arg = "-h" then [] else [.device arg]
  | arg :: value :: rest =>
    if arg = "--nzones" ∨ arg = "-b" then .numZones value :: settings rest
    else if arg = "--zonesize" ∨ arg = "-s" then .zoneSize value :: settings rest
    else if arg = "--dir" ∨ arg = "-d" then .dir value :: settings rest
    else if arg = "--help" ∨ arg = "-h" then settings (value :: rest)
    else .device arg :: settings (value :: rest)

namespace Setting

/-- The value that `std::stoi` converts. -/
def number? : Setting → Option String
  | numZones value => some value
  | zoneSize value => some value
  | _ => none

def numZones? : Setting → Option String
  | numZones value => some value
  | _ => none

def zoneSize? : Setting → Option String
  | zoneSize value => some value
  | _ => none

def device? : Setting → Option String
  | device name => some name
  | _ => none

def apply (args : Args) : Setting → Except MkfsError Args
  | numZones value => do
    let n ← stoi value
    return { args with numZones := u64OfInt n }
  | zoneSize value => do
    let n ← stoi value
    return { args with zoneSize := u64OfInt n }
  | dir value => return { args with dir := value }
  | device name => return { args with device := name }

end Setting

/-- What the last setting of a kind says. -/
def lastOf (kind : Setting → Option String) (ss : List Setting) : Option String :=
  (ss.filterMap kind).getLast?

/-- Every number among the settings converts. -/
def Convert (ss : List Setting) : Prop :=
  ∀ s ∈ ss, ∀ value, s.number? = some value → ∃ n, stoi value = .ok n

/-- All numbers convert, a device is named, and the zone size given last is less than the size of
an inode, but not negative. -/
def TinyZones (argv : List String) : Prop :=
  Convert (settings argv) ∧ (lastOf Setting.device? (settings argv)).getD "" ≠ "" ∧
    ∃ value n, lastOf Setting.zoneSize? (settings argv) = some value ∧ stoi value = .ok n ∧
      0 ≤ n ∧ n < sizeofInode

/-- The loop of `ParseArgs` applies the settings from left to right. -/
theorem parseArgsLoop_eq : parseArgsLoop argv args = (settings argv).foldlM Setting.apply args := by
  fun_induction parseArgsLoop argv args with
  | case1 args => rfl
  | case2 args arg hhelp =>
    rw [settings, if_pos hhelp]
    rfl
  | case3 args arg hhelp =>
    rw [settings, if_neg hhelp]
    rfl
  | case4 arg value rest args hzones ih =>
    rw [settings, if_pos hzones, List.foldlM_cons, Setting.apply]
    cases stoi value with
    | error e => rfl
    | ok n => exact ih n
  | case5 arg value rest args hzones hsize ih =>
    rw [settings, if_neg hzones, if_pos hsize, List.foldlM_cons, Setting.apply]
    cases stoi value with
    | error e => rfl
    | ok n => exact ih n
  | case6 arg value rest args hzones hsize hdir ih =>
    rw [settings, if_neg hzones, if_neg hsize, if_pos hdir, List.foldlM_cons, ih]
    rfl
  | case7 arg value rest args hzones hsize hdir hhelp ih =>
    rw [settings, if_neg hzones, if_neg hsize, if_neg hdir, if_pos hhelp, ih]
  | case8 arg value rest args hzones hsize hdir hhelp ih =>
    rw [settings, if_neg hzones, if_neg hsize, if_neg hdir, if_neg hhelp, List.foldlM_cons, ih]
    rfl

/-! ## What the loop leaves -/

/-- `std::stoi` throws, or gives an `int`. -/
theorem stoi_cases (value : String) : (∃ what, stoi value = .error (.exception what)) ∨
    ∃ n, stoi value = .ok n ∧ -2 ^ 31 ≤ n ∧ n < 2 ^ 31 := by
  -- whatever the sign, the digits are checked in the same way
  have hend : ∀ (digits : List Char) (x : Int) (r : Except MkfsError Int),
      r = (if digits.isEmpty then .error (.exception "stoi")
        else if x < -2 ^ 31 ∨ 2 ^ 31 ≤ x then .error (.exception "stoi") else .ok x) →
      (∃ what, r = .error (.exception what)) ∨ ∃ n, r = .ok n ∧ -2 ^ 31 ≤ n ∧ n < 2 ^ 31 := by
    rintro digits x r rfl
    split
    · exact .inl ⟨_, rfl⟩
    · split
      · exact .inl ⟨_, rfl⟩
      · exact .inr ⟨x, rfl, by omega, by omega⟩
  unfold stoi
  simp only
  split
  · exact hend _ _ _ rfl
  · exact hend _ _ _ rfl
  · exact hend _ _ _ rfl

/-- The number a setting leaves in its variable. -/
def sizeValue (value : String) : Nat :=
  match stoi value with
  | .ok n => u64OfInt n
  | .error _ => 0

theorem lastOf_cons : lastOf kind (s :: ss) = (lastOf kind ss).or (kind s) := by
  rw [lastOf, lastOf]
  cases hs : kind s with
  | none => rw [List.filterMap_cons_none hs, Option.or_none]
  | some value =>
    rw [List.filterMap_cons_some hs, List.getLast?_cons]
    cases (ss.filterMap kind).getLast? <;> rfl

/-- One setting throws, its number not converting, or is stored. -/
theorem Setting.apply_cases (args : Args) (s : Setting) :
    (∃ what, s.apply args = .error (.exception what)) ∧
        (∃ value, s.number? = some value ∧ ∀ n, stoi value ≠ .ok n) ∨
      ∃ args', s.apply args = .ok args' ∧
        (∀ value, s.number? = some value → ∃ n, stoi value = .ok n) ∧
        args'.device = s.device?.getD args.device ∧
        args'.zoneSize = (s.zoneSize?.map sizeValue).getD args.zoneSize ∧
        args'.numZones = (s.numZones?.map sizeValue).getD args.numZones := by
  cases s with
  | numZones value | zoneSize value =>
    rcases stoi_cases value with ⟨what, herr⟩ | ⟨n, hn, -⟩
    · refine .inl ⟨⟨what, ?_⟩, value, rfl, ?_⟩
      · rw [apply, herr]
        rfl
      · intro n hn
        rw [herr] at hn
        cases hn
    · rw [apply, hn]
      refine .inr ⟨_, rfl, ?_, rfl, ?_, ?_⟩
      · intro value' hvalue
        cases hvalue
        exact ⟨n, hn⟩
      · simp [zoneSize?, sizeValue, hn]
      · simp [numZones?, sizeValue, hn]
  | dir value | device name =>
    refine .inr ⟨_, rfl, ?_, rfl, rfl, rfl⟩
    intro value hvalue
    cases hvalue

/-- Either some number does not convert, and the loop throws; or the device, the zone size and the
zone count named last stay. -/
theorem foldlM_apply_cases (ss : List Setting) (args : Args) :
    (∃ what, ss.foldlM Setting.apply args = .error (.exception what)) ∧ ¬Convert ss ∨
      ∃ args', ss.foldlM Setting.apply args = .ok args' ∧ Convert ss ∧
        args'.device = (lastOf Setting.device? ss).getD args.device ∧
        args'.zoneSize = ((lastOf Setting.zoneSize? ss).map sizeValue).getD args.zoneSize ∧
        args'.numZones = ((lastOf Setting.numZones? ss).map sizeValue).getD args.numZones := by
  induction ss generalizing args with
  | nil =>
    refine .inr ⟨args, rfl, ?_, rfl, rfl, rfl⟩
    intro s hs
    cases hs
  | cons s ss ih =>
    rw [List.foldlM_cons, lastOf_cons, lastOf_cons, lastOf_cons]
    rcases s.apply_cases args with
      ⟨⟨what, herr⟩, value, hnum, hbad⟩ | ⟨args₁, hok, hnum, hdev, hsize, hcount⟩
    · rw [herr]
      refine .inl ⟨⟨what, rfl⟩, ?_⟩
      intro hall
      obtain ⟨n, hn⟩ := hall s List.mem_cons_self value hnum
      exact hbad n hn
    · rw [hok]
      rcases ih args₁ with ⟨herr, hbad⟩ | ⟨args', hok', hall, hdev', hsize', hcount'⟩
      · refine .inl ⟨herr, ?_⟩
        intro hall
        exact hbad fun s hs => hall s (List.mem_cons_of_mem _ hs)
      · refine .inr ⟨args', hok', List.forall_mem_cons.mpr ⟨hnum, hall⟩, ?_, ?_, ?_⟩
        · rw [hdev', hdev]
          cases lastOf Setting.device? ss <;> rfl
        · rw [hsize', hsize]
          cases lastOf Setting.zoneSize? ss <;> rfl
        · rw [hcount', hcount]
          cases lastOf Setting.numZones? ss <;> rfl

/-- The zone size the loop leaves is less than that of an inode, as a `uint32_t`, if the one given
last is. -/
theorem zoneSize_lt_iff {ss : List Setting} (h : Convert ss) :
    u32 (((lastOf Setting.zoneSize? ss).map sizeValue).getD 16384) < sizeofInode ↔
      ∃ value n, lastOf Setting.zoneSize? ss = some value ∧ stoi value = .ok n ∧ 0 ≤ n ∧
        n < sizeofInode := by
  cases hlast : lastOf Setting.zoneSize? ss with
  | none =>
    simp only [Option.map_none, Option.getD_none]
    constructor
    · intro hlt
      exact absurd hlt (by decide)
    · rintro ⟨_, _, hnone, -⟩
      cases hnone
  | some value =>
    have hmem : value ∈ ss.filterMap Setting.zoneSize? := List.mem_of_getLast? hlast
    obtain ⟨s, hs, hsize⟩ := List.mem_filterMap.mp hmem
    have hnum : s.number? = some value := by
      cases s with
      | zoneSize v => exact hsize
      | numZones v | dir v | device v => cases hsize
    rcases stoi_cases value with ⟨what, herr⟩ | ⟨n, hn, hlo, hhi⟩
    · obtain ⟨n, hn⟩ := h s hs value hnum
      rw [herr] at hn
      cases hn
    · have hvalue : sizeValue value = u64OfInt n := by rw [sizeValue, hn]
      rw [Option.map_some, Option.getD_some, hvalue]
      constructor
      · intro hlt
        refine ⟨value, n, rfl, hn, ?_, ?_⟩
        · simp only [u32, u64OfInt, sizeofInode] at *
          omega
        · simp only [u32, u64OfInt, sizeofInode] at *
          omega
      · rintro ⟨_, n', ⟨⟩, hn', h0, h64⟩
        rw [hn] at hn'
        cases hn'
        simp only [u32, u64OfInt, sizeofInode] at *
        omega

/-! ## The divisions -/

theorem isPowerOfTwoLoop_succ (h : z < 2 ^ fuel) :
    isPowerOfTwoLoop (fuel + 1) z = isPowerOfTwoLoop fuel z := by
  induction fuel generalizing z with
  | zero =>
    have hz : z = 0 := by omega
    rw [hz]
    rfl
  | succ fuel ih =>
    rw [isPowerOfTwoLoop]
    conv => rhs; rw [isPowerOfTwoLoop]
    rw [ih (by omega)]

/-- 32 halvings take every `uint32_t` down to one, so the loop of `IsPowerOfTwo` ends. -/
theorem isPowerOfTwoLoop_of_le (h : z < 2 ^ 32) (hf : 32 ≤ fuel) :
    isPowerOfTwoLoop fuel z = isPowerOfTwo z := by
  induction hf with
  | refl => rfl
  | @step fuel hle ih =>
    rw [isPowerOfTwoLoop_succ (Nat.lt_of_lt_of_le h (Nat.pow_le_pow_right (by decide) hle)), ih]

/-- The constructor divides by the inodes of a block. -/
theorem parsedConfiguration_cases (device dir : String) (numZones zoneSize : Nat) :
    u32 zoneSize < sizeofInode ∧
        parsedConfiguration device dir numZones zoneSize = .error .divisionByZero ∨
      sizeofInode ≤ u32 zoneSize ∧
        ∃ config, parsedConfiguration device dir numZones zoneSize = .ok config := by
  have hzero : blockSizeOf (u32 zoneSize) / sizeofInode = 0 ↔ u32 zoneSize < sizeofInode := by
    unfold blockSizeOf sizeofInode
    split <;> omega
  simp only [parsedConfiguration, Configuration.make, Configuration.countInodeEntryBlocks]
  by_cases hsmall : u32 zoneSize < sizeofInode
  · rw [if_pos (hzero.mpr hsmall)]
    exact .inl ⟨hsmall, rfl⟩
  · rw [if_neg (mt hzero.mp hsmall)]
    exact .inr ⟨Nat.le_of_not_lt hsmall, _, rfl⟩

/-- The default zone count divides by the zone size, which is at least one inode's unless the
constructor divides by zero too. -/
theorem defaultNumZones_cases (deviceSize : String → Nat) (args : Args) :
    args.zoneSize = 0 ∧ defaultNumZones deviceSize args = .error .divisionByZero ∨
      ∃ numZones, defaultNumZones deviceSize args = .ok numZones := by
  unfold defaultNumZones
  split
  · split
    · exact .inl ⟨‹_›, rfl⟩
    · exact .inr ⟨_, rfl⟩
  · exact .inr ⟨_, rfl⟩

theorem verifyConfiguration_cases (deviceSize : String → Nat) (config : Configuration) :
    (∃ what, verifyConfiguration deviceSize config = .error (.exception what)) ∨
      verifyConfiguration deviceSize config = .ok config := by
  unfold verifyConfiguration
  split
  · exact .inl ⟨_, rfl⟩
  · split
    · exact .inl ⟨_, rfl⟩
    · split
      · exact .inl ⟨_, rfl⟩
      · exact .inr rfl

theorem parseArgs_of_loop {args : Args} (hargs : parseArgsLoop argv
      { device := "", dir := "", zoneSize := 16384, numZones := 0 } = .ok args) :
    parseArgs deviceSize argv =
      if args.device = "" then .error (.exception "Device name expected")
      else defaultNumZones deviceSize args >>= fun numZones =>
        parsedConfiguration args.device args.dir numZones args.zoneSize >>=
          verifyConfiguration deviceSize := by
  rw [parseArgs, hargs]
  by_cases hdev : args.device = ""
  · rw [if_pos hdev]
    exact (if_pos hdev).trans rfl
  · rw [if_neg hdev]
    exact if_neg hdev

/-- After its loop `ParseArgs` divides by zero on a zone size less than that of an inode, and
otherwise throws or returns. -/
theorem parseArgs_cases (deviceSize : String → Nat) {args : Args} (hargs : parseArgsLoop argv
      { device := "", dir := "", zoneSize := 16384, numZones := 0 } = .ok args)
    (hdev : args.device ≠ "") :
    u32 args.zoneSize < sizeofInode ∧ parseArgs deviceSize argv = .error .divisionByZero ∨
      sizeofInode ≤ u32 args.zoneSize ∧
        ((∃ what, parseArgs deviceSize argv = .error (.exception what)) ∨
          ∃ config, parseArgs deviceSize argv = .ok config) := by
  rw [parseArgs_of_loop hargs, if_neg hdev]
  rcases defaultNumZones_cases deviceSize args with ⟨hzero, hdef⟩ | ⟨numZones, hdef⟩
  · refine .inl ⟨?_, ?_⟩
    · rw [hzero]
      decide
    · rw [hdef]
      rfl
  · rw [hdef]
    change u32 args.zoneSize < sizeofInode ∧ parsedConfiguration _ _ numZones _ >>= _ = _ ∨
      sizeofInode ≤ u32 args.zoneSize ∧
        ((∃ what, parsedConfiguration _ _ numZones _ >>= _ = .error (.exception what)) ∨
          ∃ config, parsedConfiguration _ _ numZones _ >>= _ = .ok config)
    rcases parsedConfiguration_cases args.device args.dir numZones args.zoneSize with
      ⟨hsmall, hmake⟩ | ⟨hlarge, config, hmake⟩
    · rw [hmake]
      exact .inl ⟨hsmall, rfl⟩
    · rw [hmake]
      refine .inr ⟨hlarge, ?_⟩
      rcases verifyConfiguration_cases deviceSize config with ⟨what, herr⟩ | hok
      · exact .inl ⟨what, herr⟩
      · exact .inr ⟨config, hok⟩

/-! ## Every argument vector -/

namespace Configuration

/-- What is promised of a configuration that `ParseArgs` returns. -/
structure Sound (config : Configuration) : Prop where
  zoneSize_pow : ∃ k, 9 ≤ k ∧ config.zoneSize = 2 ^ k
  blockSize_dvd : config.blockSize ∣ config.zoneSize
  three_lt : 3 < config.numZones
  numZones_le : config.numZones ≤ 8 * config.blockSize
  inodes_le : min config.numZones (8 * config.blockSize) ≤
    config.numInodeEntryBlocks * (config.blockSize / sizeofInode)

theorem Accepted.sound {config : Configuration} (H : config.Accepted) : config.Sound where
  zoneSize_pow := by
    obtain ⟨k, hk, -, hz⟩ := H.zoneSize_pow
    exact ⟨k, hk, hz⟩
  blockSize_dvd := ⟨config.blocksPerZone, by rw [H.zoneSize_eq, Nat.mul_comm]⟩
  three_lt := H.three_lt
  numZones_le := by
    rw [Nat.mul_comm]
    exact H.numZones_le
  inodes_le := Nat.le_trans (Nat.min_le_left ..) H.inodeTable_bounds.1

end Configuration

/-- `ParseArgs` throws an exception or returns a configuration that is sound. -/
def ThrowsOrSound (deviceSize : String → Nat) (argv : List String) : Prop :=
  (∃ what, parseArgs deviceSize argv = .error (.exception what)) ∨
    ∃ config, parseArgs deviceSize argv = .ok config ∧ config.Sound

/-- The loop of `ParseArgs` throws, or leaves the device and the zone size named last. -/
theorem parseArgsLoop_cases (argv : List String) :
    (∃ what, parseArgsLoop argv { device := "", dir := "", zoneSize := 16384, numZones := 0 } =
        .error (.exception what)) ∧ ¬Convert (settings argv) ∨
      ∃ args, parseArgsLoop argv { device := "", dir := "", zoneSize := 16384, numZones := 0 } =
          .ok args ∧
        (args.device ≠ "" ∧ u32 args.zoneSize < sizeofInode ↔ TinyZones argv) := by
  rw [parseArgsLoop_eq]
  rcases foldlM_apply_cases (settings argv)
      { device := "", dir := "", zoneSize := 16384, numZones := 0 } with
    hthrows | ⟨args, hok, hconv, hdev, hsize, -⟩
  · exact .inl hthrows
  · have hlast := zoneSize_lt_iff hconv
    rw [← hsize] at hlast
    refine .inr ⟨args, hok, ?_⟩
    rw [hdev, hlast]
    constructor
    · rintro ⟨hname, hsmall⟩
      exact ⟨hconv, hname, hsmall⟩
    · rintro ⟨-, hname, hsmall⟩
      exact ⟨hname, hsmall⟩

theorem parseArgs_of_tiny (deviceSize : String → Nat) (h : TinyZones argv) :
    parseArgs deviceSize argv = .error .divisionByZero := by
  rcases parseArgsLoop_cases argv with ⟨-, hbad⟩ | ⟨args, hok, htiny⟩
  · exact absurd h.1 hbad
  · obtain ⟨hdev, hsmall⟩ := htiny.mpr h
    rcases parseArgs_cases deviceSize hok hdev with ⟨-, hdiv⟩ | ⟨hlarge, -⟩
    · exact hdiv
    · exact absurd hsmall (Nat.not_lt.mpr hlarge)

theorem parseArgs_of_not_tiny (deviceSize : String → Nat) (h : ¬TinyZones argv) :
    (∃ what, parseArgs deviceSize argv = .error (.exception what)) ∨
      ∃ config, parseArgs deviceSize argv = .ok config := by
  rcases parseArgsLoop_cases argv with ⟨⟨what, hthrows⟩, -⟩ | ⟨args, hok, htiny⟩
  · refine .inl ⟨what, ?_⟩
    rw [parseArgs, hthrows]
    rfl
  · by_cases hdev : args.device = ""
    · refine .inl ⟨"Device name expected", ?_⟩
      rw [parseArgs_of_loop hok, if_pos hdev]
    · rcases parseArgs_cases deviceSize hok hdev with ⟨hsmall, -⟩ | ⟨-, hres⟩
      · exact absurd (htiny.mp ⟨hdev, hsmall⟩) h
      · exact hres

/-- **Argument handling**. On every argument vector and for every device size `ParseArgs` throws or
returns a sound configuration, and divides nothing by zero, exactly if it is not asked for zones
smaller than an inode. -/
theorem throwsOrSound_iff (deviceSize : String → Nat) (argv : List String) :
    ThrowsOrSound deviceSize argv ↔ ¬TinyZones argv := by
  constructor
  · intro hres htiny
    have hdiv := parseArgs_of_tiny deviceSize htiny
    rcases hres with ⟨what, hthrows⟩ | ⟨config, hret, -⟩
    · rw [hdiv] at hthrows
      cases hthrows
    · rw [hdiv] at hret
      cases hret
  · intro h
    rcases parseArgs_of_not_tiny deviceSize h with hthrows | ⟨config, hret⟩
    · exact .inl hthrows
    · exact .inr ⟨config, hret, (accepted_of_parseArgs hret).sound⟩

/-- Zones of no bytes stop the default zone count, zones of 32 bytes the constructor. -/
theorem tiny_zones_divide_by_zero :
    parseArgs (fun _ => 2 ^ 20) ["-s", "0", "/dev/nvme0n1"] = .error .divisionByZero ∧
      parseArgs (fun _ => 2 ^ 20) ["-s", "32", "-b", "8", "/dev/nvme0n1"] =
        .error .divisionByZero ∧
      ¬ThrowsOrSound (fun _ => 2 ^ 20) ["-s", "0", "/dev/nvme0n1"] := by
  have hzero : parseArgs (fun _ => 2 ^ 20) ["-s", "0", "/dev/nvme0n1"] =
      .error .divisionByZero := by decide
  refine ⟨hzero, by decide, ?_⟩
  rintro (⟨what, hthrows⟩ | ⟨config, hret, -⟩)
  · rw [hzero] at hthrows
    cases hthrows
  · rw [hzero] at hret
    cases hret

end Aufs
